import CapaX.Rules.WellScoped

/-
  The vocabularies of `os`, `arch` and `format` over whole bodies. The value beside the first key
  is checked against them; the argument of a count is not, nor is a value that is found under the
  key elsewhere, as where the first key is tagged. So a body keeps to the vocabularies exactly when
  none of these is a word outside them (`buildStatements_inVocabulary_iff`).
-/

namespace CapaX

open Yaml Text

/-- The feature of a leaf or of a count. -/
def Statement.feature : Statement Node → Option Feature
  | .leaf f | .range f _ _ => .some f
  | _ => none

/-- Every feature of a body carries a word of its vocabulary. -/
def Node.InVocabulary (node : Node) : Prop :=
  node.Everywhere fun stmt => ∀ f, stmt.feature = some f → f.InVocabulary

/-- A `count(term(arg))` key whose argument is no word of the vocabulary of its term. -/
def CountsUnknownWord (d : Mapping) : Prop :=
  ∃ k key raw rest term arg, d = (k, raw) :: rest ∧ k.asStr = some key ∧
    isCountKey key = true ∧ countTerm key = .ok (term, some arg) ∧
    String.ofList term ∈ vocabularyKeys ∧
    textValue (String.ofList arg) ∉ vocabularyOf (String.ofList term)

/-- A tagged key of a vocabulary whose checked value hides another, unknown word: the one of an
    entry under the key without the tag. -/
def HidesUnknownWord (d : Mapping) : Prop :=
  ∃ k key raw text, d = [(k, raw), (.string key, .string text)] ∧ k.asStr = some key ∧
    k ≠ .string key ∧ key ∈ vocabularyKeys ∧ textValue text ∉ vocabularyOf key

/-! ## Nodes -/

theorem inVocabulary_leaf {f : Feature} {d : Option String} :
    Node.InVocabulary ⟨.leaf f, d⟩ ↔ f.InVocabulary := by
  unfold Node.InVocabulary
  rw [Node.everywhere_iff]
  simp [Node.stmt, Statement.feature, Statement.children]

theorem inVocabulary_range {f : Feature} {min : UInt32} {max : Option UInt32}
    {d : Option String} : Node.InVocabulary ⟨.range f min max, d⟩ ↔ f.InVocabulary := by
  unfold Node.InVocabulary
  rw [Node.everywhere_iff]
  simp [Node.stmt, Statement.feature, Statement.children]

/-- A statement without a feature keeps to the vocabularies when its children do. -/
theorem inVocabulary_children {stmt : Statement Node} {d : Option String}
    (h : stmt.feature = none) :
    Node.InVocabulary ⟨stmt, d⟩ ↔ ∀ c ∈ stmt.children, c.InVocabulary := by
  unfold Node.InVocabulary
  rw [Node.everywhere_iff]
  simp [Node.stmt, h]

/-- A feature that equals another carries the same word. -/
theorem word_eq_of_beq {f g : Feature} (h : (f == g) = true) : f.word = g.word := by
  obtain ⟨_, _, rfl, rfl, _⟩ | ⟨_, _, _, rfl, rfl, _⟩ | ⟨_, _, rfl, rfl, _⟩ | ⟨_, rfl⟩ :=
    Feature.beq_iff.mp h
  all_goals rfl

/-- Only a leaf with the feature of another one is dropped as a duplicate. -/
theorem inVocabulary_uniqueNodes {nodes : List Node} :
    (∀ n ∈ uniqueNodes nodes [], n.InVocabulary) ↔ ∀ n ∈ nodes, n.InVocabulary := by
  obtain ⟨hsub, hkept⟩ := keepsAll_uniqueNodes nodes
  constructor
  · intro h n hn
    obtain ⟨k, hk, rfl | ⟨f, d, g, e, rfl, rfl, heq⟩⟩ := hkept n hn
    · exact h k hk
    · have hf := inVocabulary_leaf.mp (h _ hk)
      rw [inVocabulary_iff, word_eq_of_beq heq] at hf
      exact inVocabulary_leaf.mpr (inVocabulary_iff.mpr hf)
  · exact fun h n hn => h n (hsub.subset hn)

theorem Assembles.inVocabulary_iff {scopes inner : Scopes} {built : List Node}
    {stmt : Statement Node} {description : Option String}
    (h : Assembles scopes inner built stmt) :
    Node.InVocabulary ⟨stmt, description⟩ ↔ ∀ n ∈ built, n.InVocabulary := by
  cases h with
  | and built => exact (inVocabulary_children rfl).trans inVocabulary_uniqueNodes
  | or built => exact (inVocabulary_children rfl).trans inVocabulary_uniqueNodes
  | some count built => exact (inVocabulary_children rfl).trans inVocabulary_uniqueNodes
  | not child => exact inVocabulary_children rfl
  | subscope child below => exact inVocabulary_children rfl
  | instruction built below =>
    rw [inVocabulary_children rfl, Statement.children, List.forall_mem_singleton]
    exact (inVocabulary_children rfl).trans inVocabulary_uniqueNodes

/-! ### What the keys say -/

theorem not_countsUnknownWord {k raw : Value} {key : String} {rest : Mapping}
    (hkey : k.asStr = some key) (notCount : isCountKey key = false) :
    ¬ CountsUnknownWord ((k, raw) :: rest) := by
  rintro ⟨_, _, _, _, _, _, hd, hkey', isCount, -⟩
  cases hd
  cases hkey.symm.trans hkey'
  cases notCount.symm.trans isCount

theorem not_hidesUnknownWord {k raw : Value} {key : String} {rest : Mapping}
    (hkey : k.asStr = some key) (hword : key ∉ vocabularyKeys) :
    ¬ HidesUnknownWord ((k, raw) :: rest) := by
  rintro ⟨_, _, _, _, hd, hkey', -, hmem, -⟩
  cases hd
  cases hkey.symm.trans hkey'
  exact hword hmem

theorem isListKey_mem {key : String} (h : isListKey key = true) :
    isCountKey key = false ∧ key ∉ vocabularyKeys := by
  refine ⟨?_, fun hmem => ?_⟩
  · obtain hlist | hmore := Bool.or_eq_true_iff.mp h
    · have hall : ∀ key ∈ listKeys, isCountKey key = false := by decide
      exact hall key (of_decide_eq_true hlist)
    · simpa using (Bool.and_eq_true_iff.mp hmore).1
  · have hall : ∀ key ∈ vocabularyKeys, isListKey key = false := by decide
    rw [hall key hmem] at h
    cases h

/-! ## Bodies -/

section

variable [Format] [RegexBackend]

/-- A leaf keeps to its vocabulary, unless its value is not the one that is checked. -/
theorem IsLeaf.inVocabulary_iff {scopes : Scopes} {k raw value : Value} {key : String}
    {rest : Mapping} {f : Feature} {description : Option String} (hkey : k.asStr = some key)
    (short : rest.length ≤ 1) (found : IsValue key ((k, raw) :: rest) raw value)
    (words : ChecksWord key raw)
    (facts : IsLeaf key value ((k, raw) :: rest) scopes f description) :
    f.InVocabulary ↔ ¬ HidesUnknownWord ((k, raw) :: rest) := by
  by_cases hword : key ∈ vocabularyKeys
  · obtain rfl | ⟨hk, rfl⟩ := found.first short
    · refine iff_of_true (facts.reads.inVocabulary words) ?_
      rintro ⟨_, _, _, text, hd, hkey', hk, -, hunknown⟩
      cases hd
      cases hkey.symm.trans hkey'
      -- the second entry is the one that is found
      obtain hget | ⟨hnot, -⟩ := found
      · rw [get_second_of_ne hk] at hget
        cases hget
        exact hunknown (facts.reads.inVocabulary_iff.mp (facts.reads.inVocabulary words) text rfl
          hword)
      · exact hnot hword
    · rw [facts.reads.inVocabulary_iff]
      constructor
      · rintro h ⟨_, _, _, text, hd, hkey', -, hmem, hunknown⟩
        cases hd
        exact hunknown (h text rfl hmem)
      · rintro h text rfl hmem
        by_contra hunknown
        exact h ⟨k, key, raw, text, rfl, hkey, hk, hmem, hunknown⟩
  · refine iff_of_true (facts.reads.inVocabulary fun hmem => absurd hmem hword) ?_
    exact not_hidesUnknownWord hkey hword

/-- A counted feature keeps to its vocabulary exactly when its argument does. -/
theorem countFeature_inVocabulary_iff {k raw : Value} {key : String} {rest : Mapping}
    {term : List Char} {arg : Option (List Char)} {f : Feature} {description : Option String}
    (hk : k.asStr = some key) (isCount : isCountKey key = true)
    (hterm : countTerm key = .ok (term, arg))
    (hfeature : countFeature (String.ofList term) (arg.map String.ofList) = .ok (f, description)) :
    f.InVocabulary ↔ ¬ CountsUnknownWord ((k, raw) :: rest) := by
  rw [inVocabulary_iff, (countFeature_spec hfeature).2]
  constructor
  · rintro h ⟨_, _, _, _, term', text, hd, hk', _, hterm', hkey, hunknown⟩
    cases hd
    cases hk.symm.trans hk'
    cases hterm.symm.trans hterm'
    exact hunknown (h _ _ (if_pos hkey))
  · intro h k word hword
    cases arg with
    | none => cases hword
    | some text =>
      by_contra hunknown
      by_cases hkey : String.ofList term ∈ vocabularyKeys
      · rw [Option.map_some, Option.bind_some, RawScalar.word, if_pos hkey] at hword
        cases hword
        exact h ⟨k, key, raw, rest, term, text, rfl, hk, isCount, hterm, hkey, hunknown⟩
      · rw [Option.map_some, Option.bind_some, word_eq_none hkey] at hword
        cases hword

theorem Builds.inVocabulary_iff {scopes : Scopes} {d : Mapping} {node : Node}
    (h : Builds scopes d node) :
    node.InVocabulary ↔
      ∀ m, StatementIn d m → ¬ CountsUnknownWord m ∧ ¬ HidesUnknownWord m := by
  induction h with
  | leaf hkey short found words facts =>
    rw [inVocabulary_leaf, facts.inVocabulary_iff hkey short found words]
    simp only [statementIn_leaf hkey facts.leafKey.2, forall_eq,
      not_countsUnknownWord hkey facts.leafKey.1, not_false_eq_true, true_and]
  | @count _ k key raw rest _ _ _ _ _ _ _ hkey short isCount hterm hfeature legal spec hsibling =>
    have hword : key ∉ vocabularyKeys := (apart_of_form isCount (by decide)).2
    have hcounts : Feature.InVocabulary _ ↔ ¬ CountsUnknownWord ((k, raw) :: rest) :=
      countFeature_inVocabulary_iff hkey isCount hterm hfeature
    rw [inVocabulary_range, hcounts]
    simp only [statementIn_scalar (parseCountSpec_scalar spec), forall_eq,
      not_hidesUnknownWord hkey hword, not_false_eq_true, and_true]
  | @list scopes inner k key entries rest description stmt parts hkey short isList hpop hparts
      assembles ih =>
    obtain ⟨notCount, hword⟩ := isListKey_mem isList
    rw [assembles.inVocabulary_iff]
    constructor
    · intro h m hm
      rcases (statementIn_list hkey isList hpop).mp hm with rfl | ⟨p, hp, inside⟩
      · exact ⟨not_countsUnknownWord hkey notCount, not_hidesUnknownWord hkey hword⟩
      · exact (ih p hp).mp (h p.2 (List.mem_map_of_mem hp)) m inside
    · intro h n hn
      obtain ⟨p, hp, rfl⟩ := List.mem_map.mp hn
      exact (ih p hp).mpr fun m hm =>
        h m ((statementIn_list hkey isList hpop).mpr (Or.inr ⟨p, hp, hm⟩))

/-- A body keeps to the vocabularies exactly when none of its counts is of an unknown word, and no
    tagged key hides one. -/
theorem buildStatements_inVocabulary_iff {d : Mapping} {scopes : Scopes} {node : Node}
    (h : buildStatements d scopes = .ok node) :
    node.InVocabulary ↔
      ∀ m, StatementIn d m → ¬ CountsUnknownWord m ∧ ¬ HidesUnknownWord m :=
  (buildStatements_builds h).inVocabulary_iff

end

/-- `count(os(foo)): 1` beside an `os` leaf that is checked. -/
theorem buildStatements_countUnknownOs :
    ∃ node, @buildStatements Format.blank RegexBackend.empty
      [(.string "and", .sequence [.mapping [(.string "os", .string "windows")],
        .mapping [(.string "count(os(foo))", .number (.posInt 1))]])]
      ⟨some .function, none⟩ = .ok node ∧ ¬ node.InVocabulary := by
  refine ⟨⟨.and [⟨.leaf (.os "windows"), none⟩, ⟨.range (.os "foo") 1 (some 1), none⟩], none⟩,
    rfl, fun h => ?_⟩
  have hrange := (inVocabulary_children rfl).mp h ⟨.range (.os "foo") 1 (some 1), none⟩
    (by simp [Statement.children])
  have hfoo : "foo" ∈ validOs := inVocabulary_range.mp hrange
  exact absurd hfoo (by decide)

/-- A known word may be counted. -/
theorem buildStatements_inVocabulary_iff_countWindows :
    ¬∃ m, StatementIn [(.string "count(os(windows))", .number (.posInt 1))] m ∧
      (CountsUnknownWord m ∨ HidesUnknownWord m) := by
  rintro ⟨m, hm, hunknown⟩
  have hknown : "windows" ∈ validOs := by decide
  obtain ⟨hcounts, hhides⟩ := (@buildStatements_inVocabulary_iff .blank .empty _
    ⟨some .function, none⟩ ⟨.range (.os "windows") 1 (some 1), none⟩ rfl).mp
    (inVocabulary_range.mpr hknown) m hm
  exact hunknown.elim hcounts hhides

end CapaX
