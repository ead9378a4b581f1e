import CapaX.Rules.Built

/-
  Which entries of a statement's mapping `build_statements` reads. It reads the first entry, and
  beside a scalar the `description`; a second entry under any other key, and a description beside
  a list of children, are passed over (`buildStatements_second`). Where the first key is tagged, a
  second entry under the key itself is read in place of the first. So a node holds whatever the
  entries of its mapping say, down to the last child (`Keeps`), exactly when the body has no such
  entry (`buildStatements_kept_iff`).
-/

namespace CapaX

open Yaml Text

/-- The entries beside the statement of a mapping are descriptions, and the node has them. -/
def KeepsRest (rest : Mapping) (description : Option String) : Prop :=
  ∀ e ∈ rest, ∃ text, e = (.string "description", .string text) ∧ description = some text

/-- A description entry of a list is the description of its node. -/
def KeepsEntry (entries : List Value) (description : Option String) : Prop :=
  ∀ value, .mapping [(.string "description", value)] ∈ entries →
    ∃ text, value = .string text ∧ description = some text

/-- Every entry of a mapping is in its node: the first one as the feature that it names, as the
    count, or as the statement over the nodes built from its list, each of which keeps its own
    mapping; the others as the description. -/
inductive Keeps [Format] [RegexBackend] : Mapping → Node → Prop
  | leaf {k key raw rest feature description} (hkey : k.asStr = some key)
      (others : KeepsRest rest description)
      (reads : ReadsAs key raw ((k, raw) :: rest) feature description) :
      Keeps ((k, raw) :: rest) ⟨.leaf feature, description⟩
  | count {k key raw rest sibling feature inner min max} (hkey : k.asStr = some key)
      (others : KeepsRest rest (sibling.or inner))
      (hsibling : siblingDescription ((k, raw) :: rest) = .ok sibling)
      (counts : CountsAs key feature inner) (spec : parseCountSpec raw = .ok (min, max)) :
      Keeps ((k, raw) :: rest) ⟨.range feature (min.getD 0) max, sibling.or inner⟩
  | list {k key entries rest inner description stmt} {parts : List (Mapping × Node)}
      (hkey : k.asStr = some key) (others : KeepsRest rest description)
      (entry : KeepsEntry entries description)
      (mem : entries.filter (fun v => !isDescriptionEntry v) = parts.map fun p => .mapping p.1)
      (built : ∀ p ∈ parts, buildStatements p.1 inner = .ok p.2)
      (kept : ∀ p ∈ parts, Keeps p.1 p.2) (composes : Composes key (parts.map (·.2)) stmt) :
      Keeps ((k, .sequence entries) :: rest) ⟨stmt, description⟩

/-- A second entry that is no description. -/
def HasSecondKey (m : Mapping) : Prop :=
  ∃ first second, m = [first, second] ∧ second.1 ≠ .string "description"

/-- A description beside a list that does not hold the same description. -/
def HasUnreadDescription (m : Mapping) : Prop :=
  ∃ key entries value, m = [(key, .sequence entries), (.string "description", value)] ∧
    .mapping [(.string "description", value)] ∉ entries

/-! ## What is read -/

section

variable [Format] {d d' : Mapping} {key : String}

theorem siblingDescription_congr (h : d.get "description" = d'.get "description") :
    siblingDescription d = siblingDescription d' := by
  rw [siblingDescription, siblingDescription, h]

variable [RegexBackend] {build : Mapping → Scopes → Except RuleError Node}

theorem buildDefaultLeaf_congr (hkey : d.get key = d'.get key)
    (h : d.get "description" = d'.get "description") (scopes : Scopes) :
    buildDefaultLeaf key d scopes = buildDefaultLeaf key d' scopes := by
  unfold buildDefaultLeaf valueOf
  rw [hkey, siblingDescription_congr h]

/-- The arms look up the key and the description only. -/
theorem buildKey_congr_mapping (hkey : d.get key = d'.get key)
    (h : d.get "description" = d'.get "description") (raw : Value) (seq : Option (List Value))
    (scopes : Scopes) (description : Option String) :
    buildKey build key d raw seq scopes description =
      buildKey build key d' raw seq scopes description := by
  have hleaf := buildDefaultLeaf_congr hkey h scopes
  have hsibling := siblingDescription_congr h
  unfold buildKey
  split
  iterate 11 rfl
  · unfold buildString
    rw [hleaf]
  · unfold buildPatternKey buildOperand valueOf buildProperty buildCom
    rw [hleaf, hsibling, hkey]

omit [Format] [RegexBackend] in
theorem get_second {first second : Value × Value} (hne : second.1 ≠ .string key) :
    Mapping.get [first, second] key = Mapping.get [first] key := by
  have hsecond : second.1.isStr key = false := by simpa using mt Value.isStr_iff.mp hne
  cases hfirst : first.1.isStr key <;> simp [Mapping.get, hfirst, hsecond]

/-- A second entry under any other key than `description` changes nothing. -/
theorem buildStatements_second {raw : Value} {second : Value × Value} (scopes : Scopes)
    (hsecond : second.1 ≠ .string "description") :
    buildStatements [(.string key, raw), second] scopes =
      buildStatements [(.string key, raw)] scopes := by
  have hsame : Mapping.get [(.string key, raw), second] key =
      Mapping.get [(.string key, raw)] key :=
    (get_cons key raw [second]).trans (get_cons key raw []).symm
  have hsibling : Mapping.get [(.string key, raw), second] "description" =
      Mapping.get [(.string key, raw)] "description" := get_second hsecond
  rw [buildStatements_eq, buildStatements_eq]
  cases raw with
  | sequence entries =>
    show (popStatementDescriptionEntry entries >>= _) = (popStatementDescriptionEntry entries >>= _)
    cases popStatementDescriptionEntry entries with
    | error e => rfl
    | ok p => exact buildKey_congr_mapping hsame hsibling _ _ _ _
  | _ => exact buildKey_congr_mapping hsame hsibling _ _ _ _

/-! ## What is kept -/

variable {scopes : Scopes} {node : Node}

omit [Format] [RegexBackend] in
/-- The entry beside the first one is a description, unless it is passed over. -/
theorem second_of_not_hasSecondKey {first : Value × Value} {rest : Mapping}
    (hshort : rest.length ≤ 1) (h : ¬ HasSecondKey (first :: rest)) {e : Value × Value}
    (he : e ∈ rest) : ∃ value, e = (.string "description", value) ∧ rest = [e] := by
  match rest, hshort with
  | [second], _ =>
    obtain rfl := List.mem_singleton.mp he
    refine ⟨e.2, ?_, rfl⟩
    by_contra hne
    exact h ⟨first, e, rfl, fun hkey => hne (Prod.ext hkey rfl)⟩

omit [Format] [RegexBackend] in
theorem get_description {k raw value : Value} (hkey : k.asStr = some key)
    (hne : key ≠ "description") :
    Mapping.get [(k, raw), (.string "description", value)] "description" = some value := by
  refine get_second_of_ne ?_
  rintro rfl
  exact hne (Option.some.inj hkey).symm

omit [Format] [RegexBackend] in
/-- Where nothing but a description stands beside it, the first entry has the value. -/
theorem IsValue.eq_first {k raw value : Value} {rest : Mapping} (short : rest.length ≤ 1)
    (hne : key ≠ "description") (hsecond : ¬ HasSecondKey ((k, raw) :: rest))
    (h : IsValue key ((k, raw) :: rest) raw value) : value = raw := by
  obtain heq | ⟨-, rfl⟩ := h.first short
  · exact heq
  · exact absurd ⟨_, _, rfl, fun hkey => hne (Value.string.inj hkey)⟩ hsecond

omit [RegexBackend] in
/-- A description beside a scalar is a string, the sibling description. -/
theorem keepsRest_sibling {k raw : Value} {rest : Mapping} {sibling description : Option String}
    (hkey : k.asStr = some key) (hne : key ≠ "description") (hshort : rest.length ≤ 1)
    (hsecond : ¬ HasSecondKey ((k, raw) :: rest))
    (hsibling : siblingDescription ((k, raw) :: rest) = .ok sibling)
    (hkeeps : ∀ s, sibling = some s → description = some s) : KeepsRest rest description := by
  intro e he
  obtain ⟨value, rfl, rfl⟩ := second_of_not_hasSecondKey hshort hsecond he
  rw [siblingDescription, get_description hkey hne] at hsibling
  cases value with
  | string text => exact ⟨text, rfl, hkeeps text (Except.ok.inj hsibling).symm⟩
  | _ => cases hsibling

/-- A node whose mapping has nothing that is passed over, and whose parts keep theirs, keeps it. -/
theorem BuiltFrom.keeps {d : Mapping}
    (h : BuiltFrom (fun scopes m node => buildStatements m scopes = .ok node) scopes d node)
    (hsecond : ¬ HasSecondKey d) (hunread : ¬ HasUnreadDescription d)
    (hparts : ∀ k key entries rest, d = (k, .sequence entries) :: rest → k.asStr = some key →
      isListKey key = true → ∀ m, .mapping m ∈ entries → isDescriptionEntry (.mapping m) = false →
        ∀ scopes node, buildStatements m scopes = .ok node → Keeps m node) : Keeps d node := by
  cases h with
  | leaf hkey short found words facts =>
    obtain rfl := found.eq_first short facts.notDescription hsecond
    obtain ⟨sibling, hsibling, hkeeps⟩ := facts.sibling
    exact .leaf hkey (keepsRest_sibling hkey facts.notDescription short hsecond hsibling hkeeps)
      facts.reads
  | count hkey short isCount hterm hfeature legal spec hsibling =>
    refine .count hkey ?_ hsibling (countsAs_of_countFeature hterm hfeature) spec
    refine keepsRest_sibling hkey (apart_of_form isCount (by decide)).1 short hsecond hsibling ?_
    rintro s rfl
    rfl
  | @list inner k key entries rest description stmt parts hkey short isList hpop hbuilt assembles
      composes =>
    obtain ⟨hchildren, hentry, -⟩ := popStatementDescriptionEntry_spec hpop
    refine .list hkey (fun e he => ?_) hentry hchildren.symm hbuilt (fun p hp => ?_) composes
    · obtain ⟨value, rfl, rfl⟩ := second_of_not_hasSecondKey short hsecond he
      have hmem : .mapping [(.string "description", value)] ∈ entries := by
        by_contra hnot
        exact hunread ⟨_, _, value, rfl, hnot⟩
      obtain ⟨text, rfl, htext⟩ := hentry value hmem
      exact ⟨text, rfl, htext⟩
    · have hmem : Value.mapping p.1 ∈ parts.map fun p => .mapping p.1 :=
        List.mem_map.mpr ⟨p, hp, rfl⟩
      rw [hchildren, List.mem_filter] at hmem
      exact hparts k key _ _ rfl hkey isList p.1 hmem.1 (by simpa using hmem.2) inner p.2
        (hbuilt p hp)

/-- A mapping whose node keeps it has nothing that is passed over. -/
theorem Keeps.read {d : Mapping} (h : Keeps d node) (hbuilt : buildStatements d scopes = .ok node) :
    ¬ HasSecondKey d ∧ ¬ HasUnreadDescription d := by
  have hsecond : ∀ {first : Value × Value} {rest : Mapping} {description : Option String},
      KeepsRest rest description → ¬ HasSecondKey (first :: rest) := by
    rintro first rest description others ⟨_, second, hm, hne⟩
    obtain ⟨-, rfl⟩ := List.cons.inj hm
    obtain ⟨text, rfl, -⟩ := others second (List.mem_singleton_self _)
    exact hne rfl
  cases h with
  | leaf hkey others reads =>
    obtain ⟨sibling, value, -, hvalue, -⟩ := reads
    refine ⟨hsecond others, ?_⟩
    rintro ⟨_, entries, _, hm, -⟩
    cases hm
    exact parseDescription_scalar hvalue entries rfl
  | count hkey others hsibling counts spec =>
    refine ⟨hsecond others, ?_⟩
    rintro ⟨_, entries, _, hm, -⟩
    cases hm
    exact parseCountSpec_scalar spec entries rfl
  | list hkey others entry mem built kept composes =>
    refine ⟨hsecond others, ?_⟩
    rintro ⟨_, _, value, hm, hunread⟩
    cases hm
    have hread (first : Value × Value) :
        ¬ HasSecondKey [first, (.string "description", value)] := hsecond others
    obtain ⟨text, htext, hdescription⟩ := others _ (List.mem_singleton_self _)
    cases htext
    -- The description of the node is the entry of its list.
    cases buildStatements_builtFrom hbuilt with
    | leaf hkey short found words facts =>
      obtain rfl := found.eq_first short facts.notDescription (hread _)
      exact facts.scalar _ rfl
    | count hkey short isCount hterm hfeature legal spec hsibling =>
      exact parseCountSpec_scalar spec _ rfl
    | list hkey short isList hpop hparts assembles composes =>
      exact hunread ((popStatementDescriptionEntry_spec hpop).2.2 text hdescription)

/-- A body holds what the entries of its mapping say, at every depth, exactly when no statement in
    it has a second key beside `description`, or a list with another description beside it. -/
theorem buildStatements_kept_iff (h : buildStatements d scopes = .ok node) :
    Keeps d node ↔ ∀ m, StatementIn d m → ¬ HasSecondKey m ∧ ¬ HasUnreadDescription m := by
  constructor
  · intro hkeeps
    induction hkeeps generalizing scopes with
    | leaf hkey others reads =>
      obtain ⟨_, _, -, hvalue, -⟩ := id reads
      intro m hm
      obtain rfl := (statementIn_scalar (parseDescription_scalar hvalue)).mp hm
      exact (Keeps.leaf hkey others reads).read h
    | count hkey others hsibling counts spec =>
      intro m hm
      obtain rfl := (statementIn_scalar (parseCountSpec_scalar spec)).mp hm
      exact (Keeps.count hkey others hsibling counts spec).read h
    | list hkey others entry mem built kept composes ih =>
      intro m hm
      cases hm with
      | here => exact (Keeps.list hkey others entry mem built kept composes).read h
      | child _ _ hentry statement inside =>
        have hmem := List.mem_filter (p := fun v => !isDescriptionEntry v).mpr
          ⟨hentry, by rw [statement]; rfl⟩
        rw [mem] at hmem
        obtain ⟨p, hp, hc⟩ := List.mem_map.mp hmem
        obtain rfl := Value.mapping.inj hc
        exact ih p hp (built p hp) m inside
  · intro hread
    have hall : ∀ n d, entriesDepth d < n → ∀ scopes node, buildStatements d scopes = .ok node →
        (∀ m, StatementIn d m → ¬ HasSecondKey m ∧ ¬ HasUnreadDescription m) → Keeps d node := by
      intro n
      induction n with
      | zero => exact fun _ hn => absurd hn (Nat.not_lt_zero _)
      | succ n ih =>
        intro d hn scopes node h hread
        obtain ⟨hsecond, hunread⟩ := hread d (.here d)
        refine (buildStatements_builtFrom h).keeps hsecond hunread ?_
        rintro k key entries rest rfl hkey isList m hm hstatement scopes node hbuilt
        refine ih m ?_ scopes node hbuilt fun m' hm' =>
          hread m' (.child hkey isList hm hstatement hm')
        have hfirst : (k, Value.sequence entries) ∈ (k, .sequence entries) :: rest :=
          List.mem_cons_self
        have hseq : (Value.sequence entries).depth ≤ _ := depth_le_entriesDepth hfirst
        have hchild : (Value.mapping m).depth ≤ listDepth entries := depth_le_listDepth hm
        rw [Value.depth] at hseq
        rw [Value.depth] at hchild
        omega
    exact hall _ d (Nat.lt_succ_self _) scopes node h hread

end

/-- A described feature beside another one, with a description of both. -/
def describedPair : Mapping :=
  [(.string "and", .sequence [
    .mapping [(.string "mnemonic", .string "xor"), (.string "description", .string "decoder")],
    .mapping [(.string "number", .string "0x10 = key size")],
    .mapping [(.string "description", .string "a loop")]])]

theorem buildStatements_kept_iff_describedPair : ∃ node,
    @buildStatements .blank .empty describedPair ⟨some .function, none⟩ = .ok node ∧
      node.description = some "a loop" ∧ @Keeps .blank .empty describedPair node := by
  refine ⟨_, rfl, rfl, (@buildStatements_kept_iff .blank _ .empty ⟨some .function, none⟩ _ rfl).mpr
    fun m hm => ?_⟩
  have hscalar : ∀ s, Scalar (.string s) := fun s => nofun
  have hmnemonic : isDescriptionEntry (.mapping [(.string "mnemonic", .string "xor"),
      (.string "description", .string "decoder")]) = false := rfl
  cases hm with
  | here =>
    refine ⟨?_, ?_⟩
    · rintro ⟨_, _, hd, -⟩
      cases hd
    · rintro ⟨_, _, _, hd, -⟩
      cases hd
  | child _ _ mem statement inside =>
    obtain hc | hc | hc : _ ∨ _ ∨ _ := by simpa using mem
    · subst hc
      obtain rfl := (statementIn_scalar (hscalar _)).mp inside
      refine ⟨?_, ?_⟩
      · rintro ⟨_, _, hd, hne⟩
        cases hd
        exact hne rfl
      · rintro ⟨_, _, _, hd, -⟩
        cases hd
    · subst hc
      obtain rfl := (statementIn_scalar (hscalar _)).mp inside
      refine ⟨?_, ?_⟩
      · rintro ⟨_, _, hd, -⟩
        cases hd
      · rintro ⟨_, _, _, hd, -⟩
        cases hd
    · subst hc
      cases statement

/-- A key beside a feature, and a description beside a list, are both lost: neither node keeps its
    mapping. -/
theorem buildStatements_dropsEntries :
    (∃ node, @buildStatements .blank .empty
      [(.string "api", .string "CreateFileA"), (.string "foo", .string "bar")]
      ⟨some .function, none⟩ = .ok node ∧
      ¬ @Keeps .blank .empty
        [(.string "api", .string "CreateFileA"), (.string "foo", .string "bar")] node) ∧
    ∃ node, @buildStatements .blank .empty
      [(.string "and", .sequence [.mapping [(.string "mnemonic", .string "xor")]]),
        (.string "description", .string "decoder")]
      ⟨some .function, none⟩ = .ok node ∧ node.description = none ∧
      ¬ @Keeps .blank .empty
        [(.string "and", .sequence [.mapping [(.string "mnemonic", .string "xor")]]),
          (.string "description", .string "decoder")] node := by
  have hother : ∀ {first second : Value × Value} {node : Node},
      (∀ text, second = (.string "description", .string text) → node.description ≠ some text) →
      ¬ @Keeps .blank .empty [first, second] node := by
    intro first second node hsecond h
    cases h with
    | leaf _ others _ =>
      obtain ⟨text, he, htext⟩ := others _ (List.mem_singleton_self _)
      exact hsecond text he htext
    | count _ others _ _ _ =>
      obtain ⟨text, he, htext⟩ := others _ (List.mem_singleton_self _)
      exact hsecond text he htext
    | list _ others _ _ _ _ _ =>
      obtain ⟨text, he, htext⟩ := others _ (List.mem_singleton_self _)
      exact hsecond text he htext
  refine ⟨⟨_, rfl, hother fun text he => ?_⟩, ⟨_, rfl, rfl, hother fun text he => ?_⟩⟩
  · simp at he
  · exact nofun

end CapaX
