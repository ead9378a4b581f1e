import CapaX.Rules.Grammar

/-
  What `build_statements` can build from a mapping (`Builds`), said once: a leaf, a count, or a
  statement over its list of children. Each case holds what the checks of its arm have
  established, so an invariant of rule bodies is an induction over the derivation
  (`buildStatements_builds`).
-/

namespace CapaX

open Yaml Text

/-! ## Features -/

/-- The limits on the payloads of features. -/
def Feature.Bounded : Feature → Prop
  | .operandNumber index _ | .operandOffset index _ => index ≤ maxOperandIndex
  | .bytes b => b.length ≤ maxBytesFeatureSize
  | _ => True

/-- The keys of a closed vocabulary, and their words. -/
def vocabularyOf : String → List String
  | "os" => validOs
  | "format" => validFormat
  | "arch" => validArch
  | _ => []

/-- The key and the word of a feature that takes its value from a vocabulary. -/
def Feature.word : Feature → Option (String × String)
  | .os w => some ("os", w)
  | .format w => some ("format", w)
  | .arch w => some ("arch", w)
  | _ => none

/-- A feature of a closed vocabulary carries one of its words. -/
def Feature.InVocabulary : Feature → Prop
  | .os word => word ∈ validOs
  | .arch word => word ∈ validArch
  | .format word => word ∈ validFormat
  | _ => True

theorem inVocabulary_iff {f : Feature} :
    f.InVocabulary ↔ ∀ key word, f.word = some (key, word) → word ∈ vocabularyOf key := by
  constructor
  · intro h key word hword
    cases f <;> cases hword <;> exact h
  · intro h
    cases f with
    | os word => exact h _ _ rfl
    | arch word => exact h _ _ rfl
    | format word => exact h _ _ rfl
    | _ => exact trivial

def vocabularyKeys : List String := ["os", "format", "arch"]

def RawScalar.Bounded : RawScalar → Prop
  | .bytes b => b.length ≤ maxBytesFeatureSize
  | _ => True

/-- The word that a value gives under a key. -/
def RawScalar.word (key : String) : RawScalar → Option (String × String)
  | .str w => if key ∈ vocabularyKeys then some (key, w) else none
  | _ => none

section

variable [Format]

theorem expectString_map {g : String → Feature} {value : RawScalar} {key : String} {f : Feature}
    (h : g <$> expectString value key = .ok f) : ∃ s, value = .str s ∧ f = g s := by
  cases value with
  | str s => exact ⟨s, rfl, (Except.ok.inj h).symm⟩
  | int n => cases h
  | bytes b => cases h

theorem expectString_eq_ok {value : RawScalar} {key s : String}
    (h : expectString value key = .ok s) : value = .str s := by
  cases value with
  | str t => rw [Except.ok.inj h]
  | int n => cases h
  | bytes b => cases h

theorem expectInt_eq_ok {value : RawScalar} {key : String} {n : Int}
    (h : expectInt value key = .ok n) : value = .int n := by
  cases value with
  | int m => rw [Except.ok.inj h]
  | str s => cases h
  | bytes b => cases h

omit [Format] in
theorem parseOperandIndex_le {key suffix : String} {i : Nat}
    (h : parseOperandIndex key suffix = .ok i) : i ≤ maxOperandIndex := by
  unfold parseOperandIndex at h
  split at h
  · cases h
  · split at h
    · cases h
    · split at h
      · cases h
      · rw [← Except.ok.inj h]
        omega

omit [Format] in
theorem parseBytes_length {s : String} {b : List UInt8} (h : parseBytes s = .ok b) :
    b.length ≤ maxBytesFeatureSize := by
  unfold parseBytes at h
  split at h
  · cases h
  · split at h
    · cases h
    · rw [← Except.ok.inj h]
      omega

/-- Only scalars are values of features. -/
def Scalar (raw : Value) : Prop := ∀ entries, raw ≠ .sequence entries

theorem parseDescription_scalar {raw : Value} {valueType : String} {sibling : Option String}
    {p : RawScalar × Option String} (h : parseDescription raw valueType sibling = .ok p) :
    Scalar raw := by
  rintro entries rfl
  unfold parseDescription at h
  split at h
  · cases h
  · cases h

/-- A parsed value is bounded, and a sibling description stays the description. -/
theorem parseDescription_spec {raw : Value} {valueType : String}
    {sibling description : Option String} {value : RawScalar}
    (h : parseDescription raw valueType sibling = .ok (value, description)) :
    value.Bounded ∧ ∀ s, sibling = some s → description = some s := by
  unfold parseDescription at h
  split at h
  · split at h
    · cases h
      exact ⟨trivial, fun s hs => hs⟩
    · cases h
  · split at h
    · obtain ⟨⟨text, desc⟩, hsplit, h⟩ := Control.bind_eq_ok.mp h
      have hsibling : ∀ s, sibling = some s → desc = some s := by
        intro s hs
        subst hs
        split at hsplit
        · cases hsplit
          rfl
        · simp only [Option.isSome_some, if_true, reduceCtorEq] at hsplit
      dsimp only at h
      split at h
      · obtain ⟨bytes, hbytes, h⟩ := Control.bind_eq_ok.mp h
        cases h
        exact ⟨parseBytes_length hbytes, hsibling⟩
      · split at h
        · obtain ⟨n, -, h⟩ := Control.bind_eq_ok.mp h
          cases h
          exact ⟨trivial, hsibling⟩
        · cases h
          exact ⟨trivial, hsibling⟩
    · obtain ⟨scalar, hscalar, h⟩ := Control.bind_eq_ok.mp h
      cases h
      refine ⟨?_, fun s hs => hs⟩
      unfold valueToScalar at hscalar
      split at hscalar
      · cases hscalar
        trivial
      · split at hscalar
        · cases hscalar
          trivial
        · split at hscalar
          · cases hscalar
            trivial
          · cases hscalar
      · cases hscalar

/-- A named value makes a bounded feature, with the word of the value under its key. -/
theorem featureFromNamedValue_spec {key : String} {value : RawScalar} {f : Feature}
    (hbounded : value.Bounded) (h : featureFromNamedValue key value = .ok f) :
    f.Bounded ∧ f.word = value.word key ∧ key ≠ "description" := by
  unfold featureFromNamedValue at h
  split at h
  · obtain ⟨s, rfl, rfl⟩ := expectString_map h
    exact ⟨trivial, rfl, by decide⟩
  · obtain ⟨s, rfl, rfl⟩ := expectString_map h
    exact ⟨trivial, rfl, by decide⟩
  · cases value with
    | bytes b => cases h; exact ⟨hbounded, rfl, by decide⟩
    | str s => cases h
    | int n => cases h
  · cases value with
    | int n => cases h; exact ⟨trivial, rfl, by decide⟩
    | str s => cases h
    | bytes b => cases h
  · obtain ⟨n, hn, hrange⟩ := Control.bind_eq_ok.mp h
    obtain ⟨m, -, hoffset⟩ := Control.bind_eq_ok.mp hrange
    obtain rfl := expectInt_eq_ok hn
    cases hoffset
    exact ⟨trivial, rfl, by decide⟩
  · split at h
    · next hkey =>
      obtain ⟨i, hi, hvalue⟩ := Control.bind_eq_ok.mp h
      obtain ⟨n, hn, hnumber⟩ := Control.bind_eq_ok.mp hvalue
      obtain rfl := expectInt_eq_ok hn
      cases hnumber
      refine ⟨parseOperandIndex_le hi, rfl, ?_⟩
      rintro rfl
      exact absurd hkey (by decide)
    · split at h
      · next hkey =>
        obtain ⟨n, hn, hindex⟩ := Control.bind_eq_ok.mp h
        obtain ⟨i, hi, hrange⟩ := Control.bind_eq_ok.mp hindex
        obtain ⟨m, -, hoffset⟩ := Control.bind_eq_ok.mp hrange
        obtain rfl := expectInt_eq_ok hn
        cases hoffset
        refine ⟨parseOperandIndex_le hi, rfl, ?_⟩
        rintro rfl
        exact absurd hkey (by decide)
      · split at h
        all_goals first
          | cases h
          | (obtain ⟨s, rfl, rfl⟩ := expectString_map h
             exact ⟨trivial, rfl, by decide⟩)

/-! ## What a key and a value say -/

/-- The keys whose feature carries the text of its value. -/
def textFeature : String → Option (String → Feature)
  | "substring" => some fun s => .string (.substring s)
  | "mnemonic" => some .mnemonic
  | "characteristic" => some .characteristic
  | "export" => some .export_
  | "import" => some .import_
  | "section" => some .section_
  | "match" => some .matchedRule
  | "function-name" => some .functionName
  | "os" => some .os
  | "format" => some .format
  | "arch" => some .arch
  | "class" => some .class_
  | "namespace" => some .namespace_
  | "property" => some fun s => .property s none
  | _ => none

omit [Format] in
/-- The feature that a key names with a value: its payload is the value. -/
inductive Names [RegexBackend] : String → RawScalar → Feature → Prop
  | text {key f} (s : String) (hkey : textFeature key = some f) :
      Names key (.str s) (f s)
  | api (s : String) : Names "api" (.str s) (.api (trimDllPart s))
  | string {s feature} (h : stringFactory s = .ok feature) : Names "string" (.str s) feature
  | bytes (b : List UInt8) : Names "bytes" (.bytes b) (.bytes b)
  | number (n : Int) : Names "number" (.int n) (.number (.int n))
  | offset (n : Int) : Names "offset" (.int n) (.offset n)
  | operandNumber {key i} (n : Int) (hkey : parseOperandIndex key "].number" = .ok i) :
      Names key (.int n) (.operandNumber i (.int n))
  | operandOffset {key i} (n : Int) (hkey : parseOperandIndex key "].offset" = .ok i) :
      Names key (.int n) (.operandOffset i n)
  | property {key access} (s : String)
      (hkey : Access.parse (String.ofList (key.toList.drop "property/".length)) = some access) :
      Names key (.str s) (.property s (some access))
  | com {key kind} (s : String)
      (hkey : ComKind.parse (String.ofList (key.toList.drop "com/".length)) = some kind) :
      Names key (.str s) (.com kind s)

/-- The feature and the description of a leaf are read from its value and from the description
    beside it. -/
def ReadsAs [RegexBackend] (key : String) (raw : Value) (d : Mapping) (feature : Feature)
    (description : Option String) : Prop :=
  ∃ sibling value, siblingDescription d = .ok sibling ∧
    parseDescription raw key sibling = .ok (value, description) ∧ Names key value feature

omit [Format] in
theorem tryI64_eq_ok {n m : Int} {message : String} (h : tryI64 n message = .ok m) : m = n := by
  unfold tryI64 at h
  split at h
  · exact (Except.ok.inj h).symm
  · cases h

theorem featureFromNamedValue_names [RegexBackend] {key : String} {value : RawScalar} {f : Feature}
    (h : featureFromNamedValue key value = .ok f) :
    key ≠ "api" ∧ Names key value f ∨ key = "api" ∧ ∃ s, value = .str s ∧ f = .api s := by
  unfold featureFromNamedValue at h
  split at h
  · exact Or.inr ⟨rfl, expectString_map h⟩
  · obtain ⟨s, rfl, rfl⟩ := expectString_map h
    exact Or.inl ⟨by decide, .text s (f := fun s => .string (.substring s)) rfl⟩
  · cases value with
    | bytes b => cases h; exact Or.inl ⟨by decide, .bytes b⟩
    | str s => cases h
    | int n => cases h
  · cases value with
    | int n => cases h; exact Or.inl ⟨by decide, .number n⟩
    | str s => cases h
    | bytes b => cases h
  · obtain ⟨n, hn, hrange⟩ := Control.bind_eq_ok.mp h
    obtain ⟨m, hm, hoffset⟩ := Control.bind_eq_ok.mp hrange
    obtain rfl := expectInt_eq_ok hn
    obtain rfl := tryI64_eq_ok hm
    cases hoffset
    exact Or.inl ⟨by decide, .offset m⟩
  · next hapi _ _ _ _ =>
    refine Or.inl ⟨hapi, ?_⟩
    split at h
    · obtain ⟨i, hi, hvalue⟩ := Control.bind_eq_ok.mp h
      obtain ⟨n, hn, hnumber⟩ := Control.bind_eq_ok.mp hvalue
      obtain rfl := expectInt_eq_ok hn
      cases hnumber
      exact .operandNumber n hi
    · split at h
      · obtain ⟨n, hn, hindex⟩ := Control.bind_eq_ok.mp h
        obtain ⟨i, hi, hrange⟩ := Control.bind_eq_ok.mp hindex
        obtain ⟨m, hm, hoffset⟩ := Control.bind_eq_ok.mp hrange
        obtain rfl := expectInt_eq_ok hn
        obtain rfl := tryI64_eq_ok hm
        cases hoffset
        exact .operandOffset m hi
      · split at h
        all_goals first
          | cases h
          | (obtain ⟨s, rfl, rfl⟩ := expectString_map h
             first
               | exact .text s rfl
               | exact .text s (f := fun s => .property s none) rfl)

/-! ## Words -/

/-- The text of a value before an inline description. -/
def textValue (text : String) : String :=
  match splitOnce descriptionSeparator.toList text.toList with
  | none => text
  | some (value, _) => String.ofList value

omit [Format] in
theorem not_numeric_of_vocabulary {key : String} (h : key ∈ vocabularyKeys) :
    isNumericValueType key = false ∧ key ≠ "bytes" ∧ key ≠ "string" ∧ key ≠ "api" := by
  have hall : ∀ key ∈ vocabularyKeys, isNumericValueType key = false ∧ key ≠ "bytes" ∧
      key ≠ "string" ∧ key ≠ "api" := by decide
  exact hall key h

omit [Format] in
/-- No word of a vocabulary carries a description. -/
theorem textValue_of_mem_vocabulary {key word : String} (h : word ∈ vocabularyOf key) :
    textValue word = word := by
  have hall : ∀ word ∈ validOs ++ validFormat ++ validArch,
      splitOnce descriptionSeparator.toList word.toList = none := by decide
  have hmem : word ∈ validOs ++ validFormat ++ validArch := by
    unfold vocabularyOf at h
    split at h
    · simp [h]
    · simp [h]
    · simp [h]
    · exact absurd h List.not_mem_nil
  rw [textValue, hall word hmem]

omit [Format] in
theorem word_eq_none {key : String} (hkey : key ∉ vocabularyKeys) (value : RawScalar) :
    value.word key = none := by
  cases value with
  | str s => exact if_neg hkey
  | int n => rfl
  | bytes b => rfl

omit [Format] in
theorem stringFactory_spec [RegexBackend] {s : String} {f : Feature}
    (h : stringFactory s = .ok f) : f.Bounded ∧ f.word = none := by
  unfold stringFactory at h
  split at h
  · obtain ⟨re, -, hf⟩ := Control.bind_eq_ok.mp h
    cases hf
    exact ⟨trivial, rfl⟩
  · cases h
    exact ⟨trivial, rfl⟩

omit [Format] in
/-- Only a word makes a feature of a vocabulary. -/
theorem Names.word_eq [RegexBackend] {key : String} {value : RawScalar} {f : Feature}
    (h : Names key value f) : f.word = value.word key := by
  have hnone : ∀ {g : Feature}, g.word = none → key ∉ vocabularyKeys → g.word = value.word key :=
    fun hword hkey => hword.trans (word_eq_none hkey value).symm
  cases h with
  | text s hkey =>
    unfold textFeature at hkey
    split at hkey
    all_goals
      cases hkey
      first | done | rfl
  | api s => rfl
  | string h => exact hnone ((stringFactory_spec h).2) (by decide)
  | bytes b => rfl
  | number n => rfl
  | offset n => rfl
  | operandNumber n hkey => rfl
  | operandOffset n hkey => rfl
  | property s hkey =>
    refine hnone rfl fun hmem => ?_
    have hall : ∀ key ∈ vocabularyKeys,
        Access.parse (String.ofList (key.toList.drop "property/".length)) = none := by decide
    cases (hall key hmem).symm.trans hkey
  | com s hkey =>
    refine hnone rfl fun hmem => ?_
    have hall : ∀ key ∈ vocabularyKeys,
        ComKind.parse (String.ofList (key.toList.drop "com/".length)) = none := by decide
    cases (hall key hmem).symm.trans hkey

theorem parseDescription_word {text key : String} {sibling description : Option String}
    {value : RawScalar}
    (h : parseDescription (.string text) key sibling = .ok (value, description)) :
    value.word key = (RawScalar.str (textValue text)).word key := by
  by_cases hkey : key ∈ vocabularyKeys
  · obtain ⟨hnumeric, hbytes, hstring, -⟩ := not_numeric_of_vocabulary hkey
    unfold parseDescription at h
    rw [if_neg hstring] at h
    dsimp only at h
    obtain ⟨⟨value', desc⟩, hsplit, hvalue⟩ := Control.bind_eq_ok.mp h
    dsimp only at hvalue
    rw [if_neg hbytes, if_neg (by rw [hnumeric]; decide)] at hvalue
    cases hvalue
    have htext : value' = textValue text := by
      cases hfound : splitOnce descriptionSeparator.toList text.toList with
      | none =>
        rw [hfound] at hsplit
        cases hsplit
        rw [textValue, hfound]
      | some parts =>
        rw [hfound] at hsplit
        dsimp only at hsplit
        split at hsplit
        · cases hsplit
        · split at hsplit
          · cases hsplit
          · cases hsplit
            rw [textValue, hfound]
    rw [htext]
  · rw [word_eq_none hkey, word_eq_none hkey]

/-! ## Leaves and counts -/

/-- `count(..)` keys. -/
def isCountKey (key : String) : Bool := startsWith "count(" key && endsWith ")" key

/-- The fixed keys of the statements over a list of children. -/
def listKeys : List String :=
  ["and", "or", "not", "optional", "process", "thread", "span of calls", "call", "function",
    "basic block", "instruction"]

def isListKey (key : String) : Bool :=
  decide (key ∈ listKeys) || !isCountKey key && endsWith " or more" key

/-- The keys of features. -/
def LeafKey (key : String) : Prop := isCountKey key = false ∧ isListKey key = false

/-- The sibling description, when there is one, is the description. -/
def KeepsSibling (d : Mapping) (description : Option String) : Prop :=
  ∃ sibling, siblingDescription d = .ok sibling ∧ ∀ s, sibling = some s → description = some s

/-- What the arms of the leaves establish. -/
structure IsLeaf [RegexBackend] (key : String) (raw : Value) (d : Mapping) (scopes : Scopes) (feature : Feature)
    (description : Option String) : Prop where
  scalar : Scalar raw
  leafKey : LeafKey key
  notDescription : key ≠ "description"
  legal : supports scopes feature = true
  bounded : feature.Bounded
  sibling : KeepsSibling d description
  reads : ReadsAs key raw d feature description

theorem supports_of_ensure {scopes : Scopes} {feature : Feature} {u : Unit}
    (h : ensureFeatureValidForScopes scopes feature = .ok u) : supports scopes feature = true := by
  unfold ensureFeatureValidForScopes at h
  split at h
  · next hlegal => exact hlegal
  · cases h

theorem checkedLeaf_eq_ok {scopes : Scopes} {feature : Feature} {description : Option String}
    {node : Node} (h : checkedLeaf scopes feature description = .ok node) :
    supports scopes feature = true ∧ node = ⟨.leaf feature, description⟩ := by
  obtain ⟨_, hvalid, hnode⟩ := Control.bind_eq_ok.mp h
  cases hnode
  exact ⟨supports_of_ensure hvalid, rfl⟩

/-- The words of the vocabularies are checked before their leaves are built. -/
def ChecksWord (key : String) (raw : Value) : Prop :=
  key ∈ vocabularyKeys → ∃ word ∈ vocabularyOf key, raw = .string word

/-- Only a text is parsed to a text. -/
theorem parseDescription_str {raw : Value} {key word : String}
    {sibling description : Option String}
    (h : parseDescription raw key sibling = .ok (.str word, description)) :
    ∃ text, raw = .string text := by
  cases raw with
  | string text => exact ⟨text, rfl⟩
  | number n =>
    unfold parseDescription at h
    split at h
    · cases h
    · obtain ⟨value, hvalue, hpair⟩ := Control.bind_eq_ok.mp h
      obtain ⟨rfl, -⟩ := Prod.mk.inj (Except.ok.inj hpair)
      unfold valueToScalar at hvalue
      dsimp only at hvalue
      split at hvalue
      · cases hvalue
      · split at hvalue <;> cases hvalue
  | _ =>
    unfold parseDescription at h
    split at h <;> cases h

/-- A leaf keeps to its vocabulary when the text that is read does. -/
theorem ReadsAs.inVocabulary_iff [RegexBackend] {key : String} {raw : Value} {d : Mapping}
    {feature : Feature} {description : Option String} (h : ReadsAs key raw d feature description) :
    feature.InVocabulary ↔ ∀ text, raw = .string text → key ∈ vocabularyKeys →
      textValue text ∈ vocabularyOf key := by
  obtain ⟨sibling, value, -, hvalue, hnames⟩ := h
  rw [CapaX.inVocabulary_iff, hnames.word_eq]
  constructor
  · rintro h text rfl hkey
    rw [parseDescription_word hvalue] at h
    exact h key (textValue text) (if_pos hkey)
  · intro h k word hword
    by_cases hkey : key ∈ vocabularyKeys
    · cases value with
      | str s =>
        obtain ⟨text, rfl⟩ := parseDescription_str hvalue
        rw [parseDescription_word hvalue, RawScalar.word, if_pos hkey] at hword
        cases hword
        exact h text rfl hkey
      | int n => cases hword
      | bytes b => cases hword
    · rw [word_eq_none hkey] at hword
      cases hword

theorem ReadsAs.inVocabulary [RegexBackend] {key : String} {raw : Value} {d : Mapping}
    {feature : Feature} {description : Option String} (h : ReadsAs key raw d feature description)
    (hwords : ChecksWord key raw) : feature.InVocabulary := by
  refine h.inVocabulary_iff.mpr fun text htext hkey => ?_
  obtain ⟨word, hmem, hword⟩ := hwords hkey
  obtain rfl := Value.string.inj (htext.symm.trans hword)
  rw [textValue_of_mem_vocabulary hmem]
  exact hmem

section

variable {key : String} {d : Mapping} {raw : Value} {scopes : Scopes} {node : Node}

omit [Format] in
theorem valueOf_eq_ok {value : Value} (h : valueOf d key = .ok value) : d.get key = some value := by
  unfold valueOf at h
  split at h
  · next v hget => rw [hget, Except.ok.inj h]
  · cases h

theorem buildDefaultLeaf_spec [RegexBackend] (hkey : LeafKey key)
    (h : buildDefaultLeaf key d scopes = .ok node) :
    ∃ raw feature description, d.get key = some raw ∧ node = ⟨.leaf feature, description⟩ ∧
      IsLeaf key raw d scopes feature description := by
  unfold buildDefaultLeaf at h
  obtain ⟨raw, hraw, hsib⟩ := Control.bind_eq_ok.mp h
  obtain ⟨sibling, hsibling, hparse⟩ := Control.bind_eq_ok.mp hsib
  obtain ⟨⟨value, description⟩, hvalue, hmake⟩ := Control.bind_eq_ok.mp hparse
  obtain ⟨feature, hfeature, hleaf⟩ := Control.bind_eq_ok.mp hmake
  obtain ⟨hlegal, rfl⟩ := checkedLeaf_eq_ok hleaf
  obtain ⟨hbounded, hkeeps⟩ := parseDescription_spec hvalue
  have hspec : feature.Bounded ∧ key ≠ "description" ∧ Names key value feature := by
    split at hfeature
    · next hapi =>
      obtain ⟨s, rfl, rfl⟩ := expectString_map hfeature
      subst hapi
      exact ⟨trivial, by decide, .api s⟩
    · split at hfeature
      · next hstring =>
        obtain ⟨s, hvalue, hs⟩ := Control.bind_eq_ok.mp hfeature
        obtain rfl := expectString_eq_ok hvalue
        subst hstring
        exact ⟨(stringFactory_spec hs).1, by decide, .string hs⟩
      · next hapi _ =>
        obtain ⟨hb, -, hne⟩ := featureFromNamedValue_spec hbounded hfeature
        obtain ⟨-, hnames⟩ | ⟨hkey, -⟩ := featureFromNamedValue_names hfeature
        · exact ⟨hb, hne, hnames⟩
        · exact absurd hkey hapi
  exact ⟨raw, feature, description, valueOf_eq_ok hraw, rfl, parseDescription_scalar hvalue, hkey,
    hspec.2.1, hlegal, hspec.1, ⟨sibling, hsibling, hkeeps⟩, sibling, value, hsibling, hvalue,
    hspec.2.2⟩

theorem buildOperand_spec [RegexBackend] {suffix : String}
    {ctor : Nat → Int → Except RuleError Feature}
    (hctor : ∀ i n f, parseOperandIndex key suffix = .ok i → ctor i n = .ok f →
      f.Bounded ∧ Names key (.int n) f)
    (hkey : LeafKey key) (hne : key ≠ "description")
    (h : buildOperand key suffix d scopes ctor = .ok node) :
    ∃ raw feature description, d.get key = some raw ∧ node = ⟨.leaf feature, description⟩ ∧
      IsLeaf key raw d scopes feature description := by
  unfold buildOperand at h
  obtain ⟨index, hindex, hraw⟩ := Control.bind_eq_ok.mp h
  obtain ⟨raw, hget, hsib⟩ := Control.bind_eq_ok.mp hraw
  obtain ⟨sibling, hsibling, hparse⟩ := Control.bind_eq_ok.mp hsib
  obtain ⟨⟨value, description⟩, hvalue, hint⟩ := Control.bind_eq_ok.mp hparse
  obtain ⟨n, hn, hmake⟩ := Control.bind_eq_ok.mp hint
  obtain rfl := expectInt_eq_ok hn
  obtain ⟨feature, hfeature, hleaf⟩ := Control.bind_eq_ok.mp hmake
  obtain ⟨hlegal, rfl⟩ := checkedLeaf_eq_ok hleaf
  obtain ⟨hb, hnames⟩ := hctor index n feature hindex hfeature
  exact ⟨raw, feature, description, valueOf_eq_ok hget, rfl, parseDescription_scalar hvalue, hkey,
    hne, hlegal, hb, ⟨sibling, hsibling, (parseDescription_spec hvalue).2⟩, sibling, _, hsibling,
    hvalue, hnames⟩

theorem buildProperty_spec [RegexBackend] (hkey : LeafKey key) (hne : key ≠ "description")
    (h : buildProperty key d raw scopes = .ok node) :
    ∃ feature description, node = ⟨.leaf feature, description⟩ ∧
      IsLeaf key raw d scopes feature description := by
  unfold buildProperty at h
  dsimp only at h
  split at h
  · cases h
  · next access haccess =>
    obtain ⟨sibling, hsibling, hparse⟩ := Control.bind_eq_ok.mp h
    obtain ⟨⟨value, description⟩, hvalue, hname⟩ := Control.bind_eq_ok.mp hparse
    obtain ⟨name, hname', hleaf⟩ := Control.bind_eq_ok.mp hname
    obtain rfl := expectString_eq_ok hname'
    obtain ⟨hlegal, rfl⟩ := checkedLeaf_eq_ok hleaf
    exact ⟨_, description, rfl, parseDescription_scalar hvalue, hkey, hne, hlegal, trivial,
      ⟨sibling, hsibling, (parseDescription_spec hvalue).2⟩, sibling, _, hsibling, hvalue,
      .property name haccess⟩

/-- A COM leaf is legal everywhere. -/
theorem buildCom_spec [RegexBackend] (hkey : LeafKey key) (hne : key ≠ "description")
    (h : buildCom key d raw = .ok node) :
    ∃ feature description, node = ⟨.leaf feature, description⟩ ∧
      IsLeaf key raw d scopes feature description := by
  unfold buildCom at h
  dsimp only at h
  split at h
  · cases h
  · next kind hkind =>
    obtain ⟨sibling, hsibling, hparse⟩ := Control.bind_eq_ok.mp h
    obtain ⟨⟨value, description⟩, hvalue, hname⟩ := Control.bind_eq_ok.mp hparse
    obtain ⟨name, hname', hleaf⟩ := Control.bind_eq_ok.mp hname
    obtain rfl := expectString_eq_ok hname'
    cases hleaf
    exact ⟨_, description, rfl, parseDescription_scalar hvalue, hkey, hne, rfl, trivial,
      ⟨sibling, hsibling, (parseDescription_spec hvalue).2⟩, sibling, _, hsibling, hvalue,
      .com name hkind⟩

end

/-- A counted feature has the word of its argument under its term. -/
theorem countFeature_spec [RegexBackend] {term : String} {arg : Option String} {f : Feature}
    {description : Option String} (h : countFeature term arg = .ok (f, description)) :
    f.Bounded ∧ f.word = arg.bind fun text => (RawScalar.str (textValue text)).word term := by
  unfold countFeature at h
  split at h
  · split at h
    · cases h
      exact ⟨trivial, rfl⟩
    · cases h
  · next text =>
    rw [Option.bind_some]
    split at h
    · next hstring =>
      obtain ⟨feature, hfeature, hpair⟩ := Control.bind_eq_ok.mp h
      cases hpair
      obtain ⟨hb, hw⟩ := stringFactory_spec hfeature
      refine ⟨hb, hw.trans (word_eq_none ?_ _).symm⟩
      rw [hstring]
      decide
    · obtain ⟨⟨value, inline⟩, hvalue, hmake⟩ := Control.bind_eq_ok.mp h
      obtain ⟨feature, hfeature, hpair⟩ := Control.bind_eq_ok.mp hmake
      cases hpair
      have hbounded := (parseDescription_spec hvalue).1
      have hword := parseDescription_word hvalue
      have htrimmed : ∀ s, (if term = "api" then RawScalar.str (trimDllPart s) else .str s).word
          term = (RawScalar.str s).word term := by
        intro s
        split
        · next hapi =>
          rw [word_eq_none (by rw [hapi]; decide), word_eq_none (by rw [hapi]; decide)]
        · rfl
      cases value with
      | str s =>
        dsimp only at hfeature
        have hstr : (if term = "api" then RawScalar.str (trimDllPart s) else .str s).Bounded := by
          split <;> trivial
        obtain ⟨hb, hw, -⟩ := featureFromNamedValue_spec hstr hfeature
        exact ⟨hb, hw.trans ((htrimmed s).trans hword)⟩
      | int n =>
        have hint : (RawScalar.int n).Bounded := trivial
        obtain ⟨hb, hw, -⟩ := featureFromNamedValue_spec hint hfeature
        exact ⟨hb, hw.trans hword⟩
      | bytes b =>
        obtain ⟨hb, hw, -⟩ := featureFromNamedValue_spec hbounded hfeature
        exact ⟨hb, hw.trans hword⟩

/-- The feature of a count is the one without an argument, or what the term names with its
    argument, which may carry a description. -/
def CountsAs [RegexBackend] (key : String) (feature : Feature) (description : Option String) :
    Prop :=
  ∃ term arg, countTerm key = .ok (term, arg) ∧
    (arg = none ∧ String.ofList term = "basic blocks" ∧ feature = .basicBlock ∧
        description = none ∨
      ∃ text value, arg = some text ∧ parseDescription (.string (String.ofList text))
          (String.ofList term) none = .ok (value, description) ∧
        Names (String.ofList term) value feature)

theorem countsAs_of_countFeature [RegexBackend] {key : String} {term : List Char}
    {arg : Option (List Char)} {f : Feature} {description : Option String}
    (hterm : countTerm key = .ok (term, arg))
    (h : countFeature (String.ofList term) (arg.map String.ofList) = .ok (f, description)) :
    CountsAs key f description := by
  refine ⟨term, arg, hterm, ?_⟩
  cases arg with
  | none =>
    unfold countFeature at h
    dsimp only [Option.map_none] at h
    split at h
    · next hblocks =>
      cases h
      exact Or.inl ⟨rfl, hblocks, rfl, rfl⟩
    · cases h
  | some text =>
    refine Or.inr ?_
    unfold countFeature at h
    dsimp only [Option.map_some] at h
    split at h
    · next hstring =>
      obtain ⟨feature, hfeature, hpair⟩ := Control.bind_eq_ok.mp h
      cases hpair
      rw [hstring]
      exact ⟨text, .str (String.ofList text), rfl, rfl, .string hfeature⟩
    · obtain ⟨⟨value, inline⟩, hvalue, hmake⟩ := Control.bind_eq_ok.mp h
      obtain ⟨feature, hfeature, hpair⟩ := Control.bind_eq_ok.mp hmake
      cases hpair
      refine ⟨text, value, rfl, hvalue, ?_⟩
      obtain ⟨hapi, hnames⟩ | ⟨hapi, s, hs, rfl⟩ := featureFromNamedValue_names hfeature
      · cases value with
        | str t =>
          dsimp only at hnames
          rwa [if_neg hapi] at hnames
        | int n => exact hnames
        | bytes b => exact hnames
      · cases value with
        | str t =>
          dsimp only at hs
          rw [if_pos hapi] at hs
          cases hs
          rw [hapi]
          exact .api t
        | int n => cases hs
        | bytes b => cases hs

/-! ## Statements over children -/

/-- The children of a statement are the nodes built, all of them but for leaves with the feature of
    another child. -/
def KeepsAll (built kids : List Node) : Prop :=
  kids.Sublist built ∧ ∀ b ∈ built, ∃ k ∈ kids, k = b ∨
    ∃ f d g e, k = ⟨.leaf f, d⟩ ∧ b = ⟨.leaf g, e⟩ ∧ (f == g) = true

omit [Format] in
theorem keepsAll_uniqueNodes (built : List Node) : KeepsAll built (uniqueNodes built []) := by
  have hall : ∀ nodes seen, (uniqueNodes nodes seen).Sublist nodes ∧ ∀ b ∈ nodes,
      (∃ k ∈ uniqueNodes nodes seen, k = b ∨
        ∃ f d g e, k = ⟨.leaf f, d⟩ ∧ b = ⟨.leaf g, e⟩ ∧ (f == g) = true) ∨
        ∃ sf ∈ seen, ∃ g e, b = ⟨.leaf g, e⟩ ∧ (sf == g) = true := by
    intro nodes seen
    fun_induction uniqueNodes nodes seen with
    | case1 => exact ⟨.slnil, fun b hb => absurd hb List.not_mem_nil⟩
    | case2 f d rest seen hseen ih =>
      refine ⟨ih.1.cons _, List.forall_mem_cons.mpr ⟨Or.inr ?_, ih.2⟩⟩
      obtain ⟨sf, hsf, heq⟩ := List.any_eq_true.mp hseen
      exact ⟨sf, hsf, f, d, rfl, heq⟩
    | case3 f d rest seen _ ih =>
      refine ⟨ih.1.cons_cons _, List.forall_mem_cons.mpr
        ⟨Or.inl ⟨_, List.mem_cons_self, Or.inl rfl⟩, fun b hb => ?_⟩⟩
      obtain ⟨k, hk, hsame⟩ | ⟨sf, hsf, g, e, rfl, heq⟩ := ih.2 b hb
      · exact Or.inl ⟨k, List.mem_cons_of_mem _ hk, hsame⟩
      · obtain hsf | hsf := List.mem_append.mp hsf
        · exact Or.inr ⟨sf, hsf, g, e, rfl, heq⟩
        · obtain rfl := List.mem_singleton.mp hsf
          exact Or.inl ⟨_, List.mem_cons_self, Or.inr ⟨sf, d, g, e, rfl, rfl, heq⟩⟩
    | case4 n rest seen _ ih =>
      refine ⟨ih.1.cons_cons _, List.forall_mem_cons.mpr
        ⟨Or.inl ⟨_, List.mem_cons_self, Or.inl rfl⟩, fun b hb => ?_⟩⟩
      exact (ih.2 b hb).imp_left fun ⟨k, hk, hsame⟩ => ⟨k, List.mem_cons_of_mem _ hk, hsame⟩
  refine ⟨(hall built []).1, fun b hb => ?_⟩
  obtain hkept | ⟨sf, hsf, -⟩ := (hall built []).2 b hb
  · exact hkept
  · exact absurd hsf List.not_mem_nil

/-- The statement that a key makes of the nodes built from its list. -/
inductive Composes : String → List Node → Statement Node → Prop
  | and {built kids} (kept : KeepsAll built kids) : Composes "and" built (.and kids)
  | or {built kids} (kept : KeepsAll built kids) : Composes "or" built (.or kids)
  | optional {built kids} (kept : KeepsAll built kids) : Composes "optional" built (.some 0 kids)
  | more {key count built kids} (hmore : endsWith " or more" key = true)
      (hcount : parseU32 (trim (key.toList.take (key.toList.length - " or more".length))) =
        .ok count) (kept : KeepsAll built kids) : Composes key built (.some count kids)
  | not (child) : Composes "not" [child] (.not child)
  | subscope (scope : Scope) (child) : Composes scope.asStr [child] (.subscope scope child)
  | instruction {built kids} (kept : KeepsAll built kids) :
      Composes Scope.instruction.asStr built (.subscope .instruction ⟨.and kids, none⟩)

/-- The scope of a pair that has the flavour of a subscope. -/
def Scopes.sameFlavour (scopes : Scopes) : Scope → Option Scope
  | .process | .thread | .spanOfCalls | .call => scopes.dynamic
  | _ => scopes.static_

/-- The subscope is at or below the scope of its flavour. -/
def AtOrBelow (scopes : Scopes) (sub : Scope) : Prop :=
  isSubscopeCompatible (scopes.sameFlavour sub) sub = true

/-- The statements the arms put together, with the scopes their children are built in. -/
inductive Assembles (scopes : Scopes) : Scopes → List Node → Statement Node → Prop where
  | and (built) : Assembles scopes scopes built (.and (uniqueNodes built []))
  | or (built) : Assembles scopes scopes built (.or (uniqueNodes built []))
  | some (count built) : Assembles scopes scopes built (.some count (uniqueNodes built []))
  | not (child) : Assembles scopes scopes [child] (.not child)
  | subscope {scope : Scope} (child) (below : AtOrBelow scopes scope) :
      Assembles scopes (.ofSubscope scope) [child] (.subscope scope child)
  | instruction (built) (below : AtOrBelow scopes .instruction) :
      Assembles scopes (.ofSubscope .instruction) built
        (.subscope .instruction ⟨.and (uniqueNodes built []), none⟩)

/-- The value of a leaf is what is found under its key. The keys with a slash, none of them a
    vocabulary's, take the value of the first entry. -/
def IsValue (key : String) (d : Mapping) (raw value : Value) : Prop :=
  d.get key = some value ∨ key ∉ vocabularyKeys ∧ value = raw

omit [Format] in
theorem get_cons (key : String) (raw : Value) (rest : Mapping) :
    Mapping.get ((.string key, raw) :: rest) key = some raw := by
  simp [Mapping.get, Value.isStr]

omit [Format] in
theorem get_second_of_ne {k raw value : Value} {key : String} (hk : k ≠ .string key) :
    Mapping.get [(k, raw), (.string key, value)] key = some value := by
  have hfirst : k.isStr key = false := by simpa using mt Value.isStr_iff.mp hk
  rw [Mapping.get, List.find?_cons_of_neg (by simp [hfirst])]
  exact get_cons key value []

omit [Format] in
/-- The value is that of the first entry, unless its key is tagged and the key stands in a second
    entry without the tag. -/
theorem IsValue.first {k raw value : Value} {key : String} {rest : Mapping}
    (short : rest.length ≤ 1) (h : IsValue key ((k, raw) :: rest) raw value) :
    value = raw ∨ k ≠ .string key ∧ rest = [(.string key, value)] := by
  obtain hget | ⟨-, rfl⟩ := h
  · by_cases hk : k = .string key
    · subst hk
      exact Or.inl (Option.some.inj (hget.symm.trans (get_cons key raw rest)))
    · have hfirst : k.isStr key = false := by simpa using mt Value.isStr_iff.mp hk
      match rest, short with
      | [], _ => simp [Mapping.get, hfirst] at hget
      | [(k', v)], _ =>
        cases hsecond : k'.isStr key with
        | true =>
          obtain rfl := Value.isStr_iff.mp hsecond
          rw [get_second_of_ne hk] at hget
          exact Or.inr ⟨hk, by rw [Option.some.inj hget]⟩
        | false => simp [Mapping.get, hfirst, hsecond] at hget
  · exact Or.inl rfl

/-- What one level of `build_statements` makes of a mapping, where `Part` says of the mappings in its
    list what was made of them. -/
inductive BuiltFrom [RegexBackend] (Part : Scopes → Mapping → Node → Prop) :
    Scopes → Mapping → Node → Prop where
  | leaf {scopes k key raw value rest feature description} (hkey : k.asStr = some key)
      (short : rest.length ≤ 1) (found : IsValue key ((k, raw) :: rest) raw value)
      (words : ChecksWord key raw)
      (facts : IsLeaf key value ((k, raw) :: rest) scopes feature description) :
      BuiltFrom Part scopes ((k, raw) :: rest) ⟨.leaf feature, description⟩
  | count {scopes k key raw rest term arg feature inner min max sibling}
      (hkey : k.asStr = some key) (short : rest.length ≤ 1) (isCount : isCountKey key = true)
      (hterm : countTerm key = .ok (term, arg))
      (hfeature : countFeature (String.ofList term) (arg.map String.ofList) = .ok (feature, inner))
      (legal : supports scopes feature = true) (spec : parseCountSpec raw = .ok (min, max))
      (hsibling : siblingDescription ((k, raw) :: rest) = .ok sibling) :
      BuiltFrom Part scopes ((k, raw) :: rest)
        ⟨.range feature (min.getD 0) max, sibling.or inner⟩
  | list {scopes inner k key entries rest description stmt} {parts : List (Mapping × Node)}
      (hkey : k.asStr = some key) (short : rest.length ≤ 1) (isList : isListKey key = true)
      (hpop : popStatementDescriptionEntry entries =
        .ok (description, parts.map fun p => .mapping p.1))
      (hparts : ∀ p ∈ parts, Part inner p.1 p.2)
      (assembles : Assembles scopes inner (parts.map (·.2)) stmt)
      (composes : Composes key (parts.map (·.2)) stmt) :
      BuiltFrom Part scopes ((k, .sequence entries) :: rest) ⟨stmt, description⟩

/-- A derivation of a node from a mapping. A statement over children comes with its children and
    what each was built from. -/
inductive Builds [RegexBackend] : Scopes → Mapping → Node → Prop where
  | leaf {scopes k key raw value rest feature description} (hkey : k.asStr = some key)
      (short : rest.length ≤ 1) (found : IsValue key ((k, raw) :: rest) raw value)
      (words : ChecksWord key raw)
      (facts : IsLeaf key value ((k, raw) :: rest) scopes feature description) :
      Builds scopes ((k, raw) :: rest) ⟨.leaf feature, description⟩
  | count {scopes k key raw rest term arg feature inner min max sibling}
      (hkey : k.asStr = some key) (short : rest.length ≤ 1) (isCount : isCountKey key = true)
      (hterm : countTerm key = .ok (term, arg))
      (hfeature : countFeature (String.ofList term) (arg.map String.ofList) = .ok (feature, inner))
      (legal : supports scopes feature = true) (spec : parseCountSpec raw = .ok (min, max))
      (hsibling : siblingDescription ((k, raw) :: rest) = .ok sibling) :
      Builds scopes ((k, raw) :: rest)
        ⟨.range feature (min.getD 0) max, sibling.or inner⟩
  | list {scopes inner k key entries rest description stmt} {parts : List (Mapping × Node)}
      (hkey : k.asStr = some key) (short : rest.length ≤ 1) (isList : isListKey key = true)
      (hpop : popStatementDescriptionEntry entries =
        .ok (description, parts.map fun p => .mapping p.1))
      (hparts : ∀ p ∈ parts, Builds inner p.1 p.2)
      (assembles : Assembles scopes inner (parts.map (·.2)) stmt) :
      Builds scopes ((k, .sequence entries) :: rest) ⟨stmt, description⟩

theorem Builds.of_builtFrom [RegexBackend] {scopes : Scopes} {d : Mapping} {node : Node}
    (h : BuiltFrom Builds scopes d node) : Builds scopes d node := by
  cases h with
  | leaf hkey short found words facts => exact .leaf hkey short found words facts
  | count hkey short isCount hterm hfeature legal spec hsibling =>
    exact .count hkey short isCount hterm hfeature legal spec hsibling
  | list hkey short isList hpop hparts assembles composes =>
    exact .list hkey short isList hpop hparts assembles

theorem asFeatureMapping_eq_ok {c : Value} {m : Mapping} (h : asFeatureMapping c = .ok m) :
    c = .mapping m := by
  unfold asFeatureMapping at h
  split at h
  · rw [Except.ok.inj h]
  · cases h

/-! ## Statement positions -/

/-- The mappings that stand for statements: the mapping itself, and those in the lists under first
    keys that are read as lists, description entries apart. -/
inductive StatementIn : Mapping → Mapping → Prop where
  | here (d) : StatementIn d d
  | child {k key entries rest c m} (hkey : k.asStr = some key) (isList : isListKey key = true)
      (mem : .mapping c ∈ entries) (statement : isDescriptionEntry (.mapping c) = false)
      (inside : StatementIn c m) : StatementIn ((k, .sequence entries) :: rest) m

omit [Format] in
theorem eraseP_of_countP_le_one {p : Value → Bool} {l : List Value} (h : l.countP p ≤ 1) :
    l.eraseP p = l.filter fun v => !p v := by
  induction l with
  | nil => rfl
  | cons v l ih =>
    cases hv : p v with
    | true =>
      rw [List.countP_cons_of_pos hv] at h
      have hnone : ∀ w ∈ l, p w = false := by
        simpa [List.countP_eq_zero] using (show l.countP p = 0 by omega)
      rw [List.eraseP_cons_of_pos hv, List.filter_cons_of_neg (by simp [hv])]
      exact (List.filter_eq_self.mpr fun w hw => by simp [hnone w hw]).symm
    | false =>
      rw [List.countP_cons_of_neg (by simp [hv])] at h
      rw [List.eraseP_cons_of_neg (by simp [hv]), List.filter_cons_of_pos (by simp [hv]), ih h]

omit [Format] in
theorem isDescriptionEntry_iff {v : Value} :
    isDescriptionEntry v = true ↔ ∃ value, v = .mapping [(.string "description", value)] := by
  constructor
  · intro h
    unfold isDescriptionEntry at h
    split at h
    · next m =>
      obtain ⟨hlength, hkey⟩ := Bool.and_eq_true_iff.mp h
      obtain ⟨⟨key, value⟩, rfl⟩ := List.length_eq_one_iff.mp (of_decide_eq_true hlength)
      refine ⟨value, ?_⟩
      cases key with
      | string k =>
        obtain rfl : k = "description" := by simpa [Mapping.containsKey, Value.isStr] using hkey
        rfl
      | _ => exact absurd hkey (by simp [Mapping.containsKey, Value.isStr])
    · cases h
  · rintro ⟨value, rfl⟩
    rfl

omit [Format] in
theorem unique_of_countP_le_one {p : Value → Bool} {l : List Value} (h : l.countP p ≤ 1)
    {v w : Value} (hv : v ∈ l) (hw : w ∈ l) (hpv : p v = true) (hpw : p w = true) : v = w := by
  rw [List.countP_eq_length_filter] at h
  have hv : v ∈ l.filter p := List.mem_filter.mpr ⟨hv, hpv⟩
  have hw : w ∈ l.filter p := List.mem_filter.mpr ⟨hw, hpw⟩
  match hfilter : l.filter p with
  | [] => rw [hfilter] at hv; exact absurd hv List.not_mem_nil
  | [x] =>
    rw [hfilter, List.mem_singleton] at hv hw
    rw [hv, hw]
  | _ :: _ :: _ =>
    rw [hfilter, List.length_cons, List.length_cons] at h
    omega

/-- The description entry is the description, and the other entries are the children. -/
theorem popStatementDescriptionEntry_spec {entries children : List Value}
    {description : Option String}
    (h : popStatementDescriptionEntry entries = .ok (description, children)) :
    children = entries.filter (fun v => !isDescriptionEntry v) ∧
      (∀ value, .mapping [(.string "description", value)] ∈ entries →
        ∃ s, value = .string s ∧ description = some s) ∧
      ∀ s, description = some s → .mapping [(.string "description", .string s)] ∈ entries := by
  unfold popStatementDescriptionEntry at h
  split at h
  · cases h
  next hcount =>
  have hle : entries.countP isDescriptionEntry ≤ 1 := by omega
  have herase := eraseP_of_countP_le_one hle
  split at h
  · next m hfind =>
    have hm : .mapping m ∈ entries := List.mem_of_find?_eq_some hfind
    have hentry : isDescriptionEntry (.mapping m) = true := List.find?_some hfind
    have honly : ∀ value, .mapping [(.string "description", value)] ∈ entries →
        Mapping.get m "description" = some value := by
      intro value hvalue
      have hsame := unique_of_countP_le_one hle hm hvalue hentry rfl
      rw [Value.mapping.inj hsame]
      rfl
    split at h
    · next text htext =>
      obtain ⟨rfl, rfl⟩ := Prod.mk.inj (Except.ok.inj h)
      refine ⟨herase, fun value hvalue => ⟨text, ?_, rfl⟩, fun s hs => ?_⟩
      · have hsome := htext.symm.trans (honly value hvalue)
        exact (Option.some.inj hsome).symm
      · obtain rfl := Option.some.inj hs
        obtain ⟨value, hvalue⟩ := isDescriptionEntry_iff.mp hentry
        have hsame : value = .string text := by
          rw [Value.mapping.inj hvalue] at htext
          exact Option.some.inj htext
        rw [← hsame, ← hvalue]
        exact hm
    · cases h
    · next hnone =>
      obtain ⟨rfl, rfl⟩ := Prod.mk.inj (Except.ok.inj h)
      refine ⟨herase, fun value hvalue => ?_, nofun⟩
      cases hnone.symm.trans (honly value hvalue)
  · next hfind =>
    obtain ⟨rfl, rfl⟩ := Prod.mk.inj (Except.ok.inj h)
    have hnone : ∀ v ∈ entries, isDescriptionEntry v = false := by
      intro v hv
      by_contra hentry
      rw [Bool.not_eq_false] at hentry
      cases hsome : entries.find? isDescriptionEntry with
      | none => exact List.find?_eq_none.mp hsome v hv hentry
      | some w =>
        obtain ⟨value, rfl⟩ := isDescriptionEntry_iff.mp (List.find?_some hsome)
        exact hfind _ hsome
    refine ⟨(List.filter_eq_self.mpr fun v hv => ?_).symm, fun value hvalue => ?_, nofun⟩
    · rw [hnone v hv]
      rfl
    · cases hnone _ hvalue

omit [Format] in
/-- A scalar under the first key holds no further statement. -/
theorem statementIn_scalar {key raw : Value} {rest m : Mapping} (hraw : Scalar raw) :
    StatementIn ((key, raw) :: rest) m ↔ m = (key, raw) :: rest := by
  constructor
  · intro h
    cases h with
    | here => rfl
    | child _ _ mem => exact absurd rfl (hraw _)
  · rintro rfl
    exact .here _

omit [Format] in
/-- A key that is no list's holds no further statement. -/
theorem statementIn_leaf {k raw : Value} {key : String} {rest m : Mapping}
    (hkey : k.asStr = some key) (hleaf : isListKey key = false) :
    StatementIn ((k, raw) :: rest) m ↔ m = (k, raw) :: rest := by
  constructor
  · intro h
    cases h with
    | here => rfl
    | child hkey' isList =>
      cases hkey.symm.trans hkey'
      cases hleaf.symm.trans isList
  · rintro rfl
    exact .here _

/-- The statements of a list are those of its children. -/
theorem statementIn_list {k : Value} {key : String} {entries : List Value} {rest m : Mapping}
    {description : Option String} {parts : List (Mapping × Node)} (hkey : k.asStr = some key)
    (isList : isListKey key = true)
    (hpop : popStatementDescriptionEntry entries =
      .ok (description, parts.map fun p => .mapping p.1)) :
    StatementIn ((k, .sequence entries) :: rest) m ↔
      m = (k, .sequence entries) :: rest ∨ ∃ p ∈ parts, StatementIn p.1 m := by
  have hchildren := (popStatementDescriptionEntry_spec hpop).1
  constructor
  · intro h
    cases h with
    | here => exact Or.inl rfl
    | child _ _ mem statement inside =>
      refine Or.inr ?_
      have hmem := List.mem_filter (p := fun v => !isDescriptionEntry v).mpr
        ⟨mem, by rw [statement]; rfl⟩
      rw [← hchildren] at hmem
      obtain ⟨p, hp, hc⟩ := List.mem_map.mp hmem
      obtain rfl := Value.mapping.inj hc
      exact ⟨p, hp, inside⟩
  · rintro (rfl | ⟨p, hp, inside⟩)
    · exact .here _
    · have hmem : Value.mapping p.1 ∈ parts.map fun p => .mapping p.1 :=
        List.mem_map.mpr ⟨p, hp, rfl⟩
      rw [hchildren, List.mem_filter] at hmem
      exact .child hkey isList hmem.1 (by simpa using hmem.2) inside

section

variable [RegexBackend] {build : Mapping → Scopes → Except RuleError Node}

omit [RegexBackend] in
/-- The children a loop has built, each beside its mapping. -/
theorem buildChildren_parts {children : List Value} {scopes : Scopes} {built : List Node}
    (h : children.mapM (buildChild build scopes) = .ok built) :
    ∃ parts : List (Mapping × Node), children = parts.map (fun p => .mapping p.1) ∧
      built = parts.map (·.2) ∧ ∀ p ∈ parts, build p.1 scopes = .ok p.2 := by
  have hall := Control.mapM_eq_ok h
  clear h
  induction hall with
  | nil => exact ⟨[], rfl, rfl, fun p hp => absurd hp List.not_mem_nil⟩
  | cons hchild hrest ih =>
    obtain ⟨parts, rfl, rfl, hparts⟩ := ih
    obtain ⟨m, hm, hnode⟩ := Control.bind_eq_ok.mp hchild
    have hvalue := asFeatureMapping_eq_ok hm
    refine ⟨(m, _) :: parts, by rw [hvalue]; rfl, rfl, fun p hp => ?_⟩
    rcases List.mem_cons.mp hp with rfl | hp
    · exact hnode
    · exact hparts p hp

/-- A statement over the children of its key, each of them built. -/
def OverChildren (build : Mapping → Scopes → Except RuleError Node) (key : String)
    (seq : Option (List Value)) (scopes : Scopes) (description : Option String) (node : Node) :
    Prop :=
  ∃ children inner built stmt, seq = some children ∧
    children.mapM (buildChild build inner) = .ok built ∧ Assembles scopes inner built stmt ∧
      Composes key built stmt ∧ node = ⟨stmt, description⟩

variable {key : String} {seq : Option (List Value)} {scopes : Scopes}
  {description : Option String} {node : Node}

omit [RegexBackend]

omit [Format] in
theorem requireSeq_eq_ok {children : List Value} (h : requireSeq seq key = .ok children) :
    seq = some children := by
  unfold requireSeq at h
  split at h
  · rw [Except.ok.inj h]
  · cases h

theorem mapM_singleton {child : Value} {built : Node}
    (h : buildChild build scopes child = .ok built) :
    [child].mapM (buildChild build scopes) = .ok [built] := by
  rw [List.mapM_cons, h]
  rfl

theorem buildChildren_eq_ok {children : List Value} {built : List Node}
    (h : buildChildren build children scopes = .ok built) :
    ∃ all, children.mapM (buildChild build scopes) = .ok all ∧ built = uniqueNodes all [] := by
  obtain ⟨all, hall, hunique⟩ := Control.bind_eq_ok.mp h
  exact ⟨all, hall, (Except.ok.inj hunique).symm⟩

theorem buildGroup_over {make : List Node → Statement Node}
    (hmake : ∀ built, Assembles scopes scopes built (make (uniqueNodes built [])))
    (hkey : ∀ built, Composes key built (make (uniqueNodes built [])))
    (h : buildGroup build key make seq scopes description = .ok node) :
    OverChildren build key seq scopes description node := by
  obtain ⟨children, hseq, hbuild⟩ := Control.bind_eq_ok.mp h
  obtain ⟨built, hbuilt, hnode⟩ := Control.bind_eq_ok.mp hbuild
  obtain ⟨all, hall, rfl⟩ := buildChildren_eq_ok hbuilt
  exact ⟨children, scopes, all, _, requireSeq_eq_ok hseq, hall, hmake all, hkey all,
    (Except.ok.inj hnode).symm⟩

theorem buildNot_over (hkey : key = "not")
    (h : buildNot build key seq scopes description = .ok node) :
    OverChildren build key seq scopes description node := by
  obtain ⟨children, hseq, hbuild⟩ := Control.bind_eq_ok.mp h
  split at hbuild
  · next child =>
    obtain ⟨built, hbuilt, hnode⟩ := Control.bind_eq_ok.mp hbuild
    exact ⟨[child], scopes, [built], _, requireSeq_eq_ok hseq, mapM_singleton hbuilt,
      .not built, hkey ▸ .not built, (Except.ok.inj hnode).symm⟩
  · cases hbuild

theorem buildSubscope_over {scope : Scope} {against : Option Scope} {message : String}
    (hagainst : against = scopes.sameFlavour scope) (hkey : key = scope.asStr)
    (h : buildSubscope build key scope seq against message description = .ok node) :
    OverChildren build key seq scopes description node := by
  unfold buildSubscope at h
  split at h
  · cases h
  · next hcompatible =>
    have hbelow : AtOrBelow scopes scope := by simpa [AtOrBelow, hagainst] using hcompatible
    obtain ⟨children, hseq, hbuild⟩ := Control.bind_eq_ok.mp h
    split at hbuild
    · next child =>
      obtain ⟨built, hbuilt, hnode⟩ := Control.bind_eq_ok.mp hbuild
      exact ⟨[child], .ofSubscope scope, [built], _, requireSeq_eq_ok hseq,
        mapM_singleton hbuilt, .subscope built hbelow, hkey ▸ .subscope scope built,
        (Except.ok.inj hnode).symm⟩
    · cases hbuild

/-- The shorthand of `instruction` with a single child is an ordinary subscope. -/
theorem buildInstructionSubscope_over (hkey : key = Scope.instruction.asStr)
    (h : buildInstructionSubscope build seq scopes description = .ok node) :
    OverChildren build key seq scopes description node := by
  unfold buildInstructionSubscope at h
  split at h
  · cases h
  · next hcompatible =>
    have hbelow : AtOrBelow scopes .instruction := by
      simpa [AtOrBelow, Scopes.sameFlavour] using hcompatible
    obtain ⟨children, hseq, hbuild⟩ := Control.bind_eq_ok.mp h
    obtain ⟨body, hbody, hnode⟩ := Control.bind_eq_ok.mp hbuild
    obtain rfl := Except.ok.inj hnode
    split at hbody
    · next child =>
      exact ⟨[child], .ofSubscope .instruction, [body], _, requireSeq_eq_ok hseq,
        mapM_singleton hbody, .subscope body hbelow, hkey ▸ .subscope .instruction body, rfl⟩
    · obtain ⟨built, hbuilt, hand⟩ := Control.bind_eq_ok.mp hbody
      obtain ⟨all, hall, rfl⟩ := buildChildren_eq_ok hbuilt
      obtain rfl := Except.ok.inj hand
      exact ⟨_, .ofSubscope .instruction, all, _, requireSeq_eq_ok hseq, hall,
        .instruction all hbelow, hkey ▸ .instruction (keepsAll_uniqueNodes all), rfl⟩

/-! ## The dispatch -/

variable [RegexBackend] {d : Mapping} {raw : Value}

/-- What a key can build: a leaf, a count, or a statement over children. -/
inductive KeyBuilds (build : Mapping → Scopes → Except RuleError Node) (key : String) (d : Mapping)
    (raw : Value) (seq : Option (List Value)) (scopes : Scopes) (description : Option String) :
    Node → Prop where
  | leaf {value feature inline} (found : IsValue key d raw value) (words : ChecksWord key raw)
      (facts : IsLeaf key value d scopes feature inline) :
      KeyBuilds build key d raw seq scopes description ⟨.leaf feature, inline⟩
  | count {sibling : Option String} {node : Node} (isCount : isCountKey key = true)
      (hsibling : siblingDescription d = .ok sibling)
      (built : buildCount key raw scopes sibling = .ok node) :
      KeyBuilds build key d raw seq scopes description node
  | list {node : Node} (isList : isListKey key = true)
      (overChildren : OverChildren build key seq scopes description node) :
      KeyBuilds build key d raw seq scopes description node

theorem KeyBuilds.of_found (words : ChecksWord key raw)
    (h : ∃ value feature inline, d.get key = some value ∧ node = ⟨.leaf feature, inline⟩ ∧
      IsLeaf key value d scopes feature inline) :
    KeyBuilds build key d raw seq scopes description node := by
  obtain ⟨value, feature, inline, hget, rfl, facts⟩ := h
  exact .leaf (Or.inl hget) words facts

theorem KeyBuilds.of_first (hkey : key ∉ vocabularyKeys)
    (h : ∃ feature inline, node = ⟨.leaf feature, inline⟩ ∧
      IsLeaf key raw d scopes feature inline) :
    KeyBuilds build key d raw seq scopes description node := by
  obtain ⟨feature, inline, rfl, facts⟩ := h
  exact .leaf (Or.inr ⟨hkey, rfl⟩) (fun hmem => absurd hmem hkey) facts

omit [Format] [RegexBackend] in
/-- A word of a vocabulary is a string of its list. -/
theorem checksWord {words : List String} {k : String} (hwords : vocabularyOf k = words)
    (hguard : ¬ (decide (key = k) && !(valueAsPlainStr raw).any fun s => decide (s ∈ words)) = true)
    (hkey : key = k) : ∃ word ∈ vocabularyOf key, raw = .string word := by
  subst hkey
  simp only [decide_true, Bool.true_and, Bool.not_eq_true', Bool.not_eq_false] at hguard
  cases raw with
  | string s =>
    refine ⟨s, ?_, rfl⟩
    rw [hwords]
    exact of_decide_eq_true hguard
  | _ => cases hguard

omit [Format] [RegexBackend] in
/-- A key of a form that no key of the list has. -/
theorem not_mem_of_form (keys : List String) {p : String → Bool} (hkey : p key = true)
    (h : ∀ k ∈ keys, p k = false) : key ∉ keys := by
  intro hmem
  rw [h key hmem] at hkey
  cases hkey

omit [Format] [RegexBackend] in
/-- A key of a form that neither `description` nor a key of a vocabulary has. -/
theorem apart_of_form {p : String → Bool} (hkey : p key = true)
    (h : ∀ k ∈ "description" :: vocabularyKeys, p k = false) :
    key ≠ "description" ∧ key ∉ vocabularyKeys :=
  List.ne_and_not_mem_of_not_mem_cons (not_mem_of_form _ hkey h)

omit [Format] in
/-- The operand index of an operand leaf is checked. -/
theorem buildOperandOffset_spec {i : Nat} {n : Int} {f : Feature}
    (hi : parseOperandIndex key "].offset" = .ok i)
    (h : Feature.operandOffset i <$> tryI64 n "operand offset value out of range: " = .ok f) :
    f.Bounded ∧ Names key (.int n) f := by
  obtain ⟨m, hm, rfl⟩ := Control.map_eq_ok h
  obtain rfl := tryI64_eq_ok hm
  exact ⟨parseOperandIndex_le hi, .operandOffset m hi⟩

theorem buildPatternKey_spec (hlist : key ∉ listKeys)
    (h : buildPatternKey build key d raw seq scopes description = .ok node) :
    KeyBuilds build key d raw seq scopes description node := by
  unfold buildPatternKey at h
  split at h
  · next hcount =>
    obtain ⟨sibling, hsibling, hbuilt⟩ := Control.bind_eq_ok.mp h
    exact .count hcount hsibling hbuilt
  next hcount =>
  have hcount : isCountKey key = false := by simpa [isCountKey] using hcount
  split at h
  · next hmore =>
    obtain ⟨count, hparse, hgroup⟩ := Control.bind_eq_ok.mp h
    exact .list (by simp [isListKey, hcount, hmore]) (buildGroup_over
      (fun built => .some count built)
      (fun built => .more hmore hparse (keepsAll_uniqueNodes built)) hgroup)
  next hmore =>
  have hleaf : LeafKey key := ⟨hcount, by simp [isListKey, hlist, hmore]⟩
  split at h
  · next hoperand =>
    obtain ⟨hne, hword⟩ := apart_of_form
      (p := fun key => startsWith "operand[" key && endsWith "].number" key) hoperand (by decide)
    refine .of_found (fun hmem => absurd hmem hword)
      (buildOperand_spec (fun i n f hi hf => ?_) hleaf hne h)
    obtain rfl := Except.ok.inj hf
    exact ⟨parseOperandIndex_le hi, .operandNumber n hi⟩
  split at h
  · next hoperand =>
    obtain ⟨hne, hword⟩ := apart_of_form
      (p := fun key => startsWith "operand[" key && endsWith "].offset" key) hoperand (by decide)
    exact .of_found (fun hmem => absurd hmem hword)
      (buildOperand_spec (fun i n f hi hf => buildOperandOffset_spec hi hf) hleaf hne h)
  split at h
  · cases h
  next hos =>
  split at h
  · cases h
  next hformat =>
  split at h
  · cases h
  next harch =>
  split at h
  · next hproperty =>
    obtain ⟨hne, hword⟩ := apart_of_form (p := startsWith "property/") hproperty (by decide)
    exact .of_first hword (buildProperty_spec hleaf hne h)
  split at h
  · next hcom =>
    obtain ⟨hne, hword⟩ := apart_of_form (p := startsWith "com/") hcom (by decide)
    exact .of_first hword (buildCom_spec hleaf hne h)
  -- the guards of the three vocabularies have passed
  refine .of_found (fun hkey => ?_) (buildDefaultLeaf_spec hleaf h)
  simp only [vocabularyKeys, List.mem_cons, List.not_mem_nil, or_false] at hkey
  rcases hkey with hkey | hkey | hkey
  · exact checksWord rfl hos hkey
  · exact checksWord rfl hformat hkey
  · exact checksWord rfl harch hkey

theorem buildKey_spec (h : buildKey build key d raw seq scopes description = .ok node) :
    KeyBuilds build key d raw seq scopes description node := by
  unfold buildKey at h
  split at h
  · exact .list (by decide)
      (buildGroup_over .and (fun built => .and (keepsAll_uniqueNodes built)) h)
  · exact .list (by decide)
      (buildGroup_over .or (fun built => .or (keepsAll_uniqueNodes built)) h)
  · exact .list (by decide) (buildNot_over rfl h)
  · exact .list (by decide) (buildGroup_over (.some 0)
      (fun built => .optional (keepsAll_uniqueNodes built)) h)
  iterate 6 exact .list (by decide) (buildSubscope_over rfl rfl h)
  · exact .list (by decide) (buildInstructionSubscope_over rfl h)
  · unfold buildString at h
    split at h
    · exact .of_found (fun hmem => absurd hmem (by decide))
        (buildDefaultLeaf_spec ⟨by decide, by decide⟩ h)
    · cases h
  · next hand hor hnot hoptional hprocess hthread hspan hcall hfunction hblock hinstruction _ =>
    refine buildPatternKey_spec ?_ h
    simp only [listKeys, List.mem_cons, List.not_mem_nil, or_false, not_or]
    exact ⟨hand, hor, hnot, hoptional, hprocess, hthread, hspan, hcall, hfunction, hblock,
      hinstruction⟩

omit [RegexBackend] in
theorem parseCountSpec_scalar {p : Option UInt32 × Option UInt32} (h : parseCountSpec raw = .ok p) :
    Scalar raw := by
  rintro entries rfl
  cases h

theorem BuiltFrom.of_keyBuilds {Part : Scopes → Mapping → Node → Prop} {k : Value} {rest : Mapping}
    (hkey : k.asStr = some key) (short : rest.length ≤ 1)
    (hbuild : ∀ m scopes node, build m scopes = .ok node → Part scopes m node)
    (hraw : ∀ children, seq = some children → ∃ entries, raw = .sequence entries ∧
      popStatementDescriptionEntry entries = .ok (description, children))
    (h : KeyBuilds build key ((k, raw) :: rest) raw seq scopes description node) :
    BuiltFrom Part scopes ((k, raw) :: rest) node := by
  cases h with
  | leaf found words facts => exact .leaf hkey short found words facts
  | count isCount hsibling built =>
    obtain ⟨⟨term, arg⟩, hterm, hfeature⟩ := Control.bind_eq_ok.mp built
    obtain ⟨⟨feature, inner⟩, hcounted, hvalid⟩ := Control.bind_eq_ok.mp hfeature
    obtain ⟨_, hlegal, hspec⟩ := Control.bind_eq_ok.mp hvalid
    obtain ⟨⟨min, max⟩, hrange, hnode⟩ := Control.bind_eq_ok.mp hspec
    obtain rfl := Except.ok.inj hnode
    exact .count hkey short isCount hterm hcounted (supports_of_ensure hlegal) hrange hsibling
  | list isList overChildren =>
    obtain ⟨children, inner, built, stmt, hseq, hmap, assembles, composes, rfl⟩ := overChildren
    obtain ⟨entries, rfl, hpop⟩ := hraw children hseq
    obtain ⟨parts, rfl, rfl, hparts⟩ := buildChildren_parts hmap
    exact .list hkey short isList hpop (fun p hp => hbuild p.1 inner p.2 (hparts p hp)) assembles
      composes

theorem buildNode_builtFrom {Part : Scopes → Mapping → Node → Prop}
    (hbuild : ∀ m scopes node, build m scopes = .ok node → Part scopes m node)
    (h : buildNode build d scopes = .ok node) : BuiltFrom Part scopes d node := by
  unfold buildNode at h
  split at h
  · cases h
  · next hlength =>
    split at h
    · cases h
    · next k raw rest =>
      have short : rest.length ≤ 1 := by simpa using hlength
      split at h
      · cases h
      · next key hkey =>
        split at h
        · next entries =>
          obtain ⟨⟨description, children⟩, hpop, hbuilt⟩ := Control.bind_eq_ok.mp h
          refine .of_keyBuilds hkey short hbuild ?_ (buildKey_spec hbuilt)
          intro children' hchildren
          obtain rfl := Option.some.inj hchildren
          exact ⟨entries, rfl, hpop⟩
        · refine .of_keyBuilds hkey short hbuild ?_ (buildKey_spec h)
          intro children hchildren
          cases hchildren

/-- The nodes of a list are what `build_statements` makes of its mappings. -/
theorem buildStatements_builtFrom (h : buildStatements d scopes = .ok node) :
    BuiltFrom (fun scopes m node => buildStatements m scopes = .ok node) scopes d node := by
  rw [buildStatements_eq] at h
  exact buildNode_builtFrom (fun _ _ _ h => h) h

/-- Whatever `build_statements` accepts has a derivation. -/
theorem buildStatements_builds (h : buildStatements d scopes = .ok node) :
    Builds scopes d node := by
  have hlevels : ∀ n d scopes node, buildLevels n d scopes = .ok node → Builds scopes d node := by
    intro n
    induction n with
    | zero =>
      intro d scopes node hnone
      exact nomatch hnone
    | succ n ih => exact fun d scopes node h => .of_builtFrom (buildNode_builtFrom ih h)
  exact hlevels _ d scopes node h

end

end

end CapaX
