import CapaX.Capabilities.ScopeOrder

/-
  Tag filtering (`filter_rules_by_tag` in `api.rs`): the rules whose `meta:` mentions a tag, and
  everything they depend on. The filter looks dependencies up in the namespace index of the full
  list. On what it keeps the index of the kept rules gives the same dependencies
  (`getDependencies_kept`), so a list that was accepted stays accepted.
-/

namespace CapaX

open Collections Graphs Relation

/-- `tag_in_value`: a text, or one of a list of texts, contains the tag. -/
def tagInValue (value : Yaml.Value) (tag : String) : Bool :=
  match value with
  | .string s => containsChars tag.toList s.toList
  | .sequence seq => seq.any fun
    | .string s => containsChars tag.toList s.toList
    | _ => false
  | _ => false

def Rule.hasTag (rule : Rule) (tag : String) : Bool :=
  rule.meta.raw.any fun e => tagInValue e.2 tag

/-- `collect_closure`: the calls nest at most once for each rule, and once more for a name without
    one. -/
def collectClosure (byName : IndexMap String Rule) (namespaces : Namespaces) (name : String)
    (out : OrdSet String) : OrdSet String :=
  closure (successorsOf byName namespaces) (byName.len + 1) name out

/-- The names `filter_rules_by_tag` keeps. -/
def keptNames (rules : List Rule) (tag : String) : OrdSet String :=
  let namespaces := indexRulesByNamespace rules
  let byName := indexByName rules
  rules.foldl (fun keep rule =>
    if rule.hasTag tag then collectClosure byName namespaces rule.name keep else keep) ∅

def filterRulesByTag (rules : List Rule) (tag : String) : List Rule :=
  rules.filter fun r => decide (r.name ∈ keptNames rules tag)

/-! ## The kept names -/

/-- A set of rules of a list that holds every tagged rule, and every rule that one of its rules
    depends on in the list. -/
structure TagClosed (rules : List Rule) (tag : String) (kept : Set Rule) : Prop where
  subset : ∀ r ∈ kept, r ∈ rules
  tagged : ∀ r ∈ rules, r.hasTag tag = true → r ∈ kept
  closed : ∀ r ∈ kept, ∀ dep ∈ getDependencies r.body (indexRulesByNamespace rules),
    ∀ r' ∈ rules, r'.name = dep → r' ∈ kept

variable {rules : List Rule} {tag : String}

theorem keptNames_spec (rules : List Rule) (tag : String) :
    (∀ r ∈ rules, r.hasTag tag = true → r.name ∈ keptNames rules tag) ∧
    (∀ x ∈ keptNames rules tag, ∀ y ∈ edges rules x, y ∈ keptNames rules tag) ∧
    ∀ x ∈ keptNames rules tag,
      ∃ r ∈ rules, r.hasTag tag = true ∧ Reaches (edges rules) r.name x := by
  have heq : keptNames rules tag = ((rules.filter fun r => r.hasTag tag).map (·.name)).foldl
      (fun out a => closure (edges rules) ((indexByName rules).len + 1) a out) ∅ := by
    rw [List.foldl_map, List.foldl_filter]
    rfl
  have hlen : (indexByName rules).keys.length < (indexByName rules).len + 1 :=
    Nat.lt_succ_of_le (IndexMap.len_eq _).ge
  obtain ⟨hstarts, hclosed, hreached⟩ := closureAll_spec
    (fun a ha => Untangled.edges_of_not_key ha) hlen
  rw [heq]
  refine ⟨fun r hr htag => hstarts r.name ?_, hclosed, fun x hx => ?_⟩
  · exact List.mem_map_of_mem (List.mem_filter.mpr ⟨hr, htag⟩)
  · obtain ⟨a, ha, hreach⟩ := hreached x hx
    obtain ⟨r, hr, rfl⟩ := List.mem_map.mp ha
    obtain ⟨hr, htag⟩ := List.mem_filter.mp hr
    exact ⟨r, hr, htag, hreach⟩

theorem mem_filterRulesByTag {r : Rule} :
    r ∈ filterRulesByTag rules tag ↔ r ∈ rules ∧ r.name ∈ keptNames rules tag := by
  rw [filterRulesByTag, List.mem_filter, decide_eq_true_eq]

section

variable (hn : (rules.map (·.name)).Nodup)

include hn

/-- The rule of a name has the dependencies the search follows. -/
theorem mem_edges_name {r : Rule} (hr : r ∈ rules) {dep : String} :
    dep ∈ edges rules r.name ↔ dep ∈ getDependencies r.body (indexRulesByNamespace rules) := by
  rw [edges, successorsOf, dependenciesOf, indexByName_of_nodup hn hr]
  exact Iff.rfl

/-- The kept rules are the least set that holds the tagged ones and what they depend on. -/
theorem filterRulesByTag_isLeast (tag : String) :
    IsLeast {kept | TagClosed rules tag kept} {r | r ∈ filterRulesByTag rules tag} := by
  obtain ⟨hstarts, hclosed, hreached⟩ := keptNames_spec rules tag
  constructor
  · refine ⟨fun r hr => (mem_filterRulesByTag.mp hr).1,
      fun r hr htag => mem_filterRulesByTag.mpr ⟨hr, hstarts r hr htag⟩, ?_⟩
    rintro r hr dep hdep r' hr' rfl
    obtain ⟨hmem, hname⟩ := mem_filterRulesByTag.mp hr
    exact mem_filterRulesByTag.mpr
      ⟨hr', hclosed r.name hname r'.name ((mem_edges_name hn hmem).mpr hdep)⟩
  · intro kept hkept r hr
    obtain ⟨hmem, hname⟩ := mem_filterRulesByTag.mp hr
    obtain ⟨start, hstart, htag, hreach⟩ := hreached r.name hname
    -- along a chain of dependencies from a tagged rule, every rule on the way is kept
    have hwalk : ∀ a b, Reaches (edges rules) a b → (∀ s ∈ rules, s.name = a → s ∈ kept) →
        ∀ s ∈ rules, s.name = b → s ∈ kept := by
      intro a b hab
      induction hab with
      | refl => exact id
      | @step a b c hedge _ ih =>
        intro ha
        obtain ⟨on, hon, rfl, hdep⟩ := (mem_edges_iff hn).mp hedge
        refine ih fun s hs hname => hkept.closed on (ha on hon rfl) b ?_ s hs hname
        exact mem_getDependencies_iff.mpr hdep
    refine hwalk _ _ hreach (fun s hs hsname => ?_) r hmem rfl
    obtain rfl := List.inj_on_of_nodup_map hn hs hstart hsname
    exact hkept.tagged s hs htag

/-! ## The index of the kept rules -/

/-- What a match value of a kept rule stands for is kept, so it stands for the same rules. -/
theorem refersTo_kept {r : Rule} (hr : r ∈ filterRulesByTag rules tag) {v : String}
    (hv : v ∈ r.body.observed) {dep : String} :
    RefersTo (filterRulesByTag rules tag) v dep ↔ RefersTo rules v dep := by
  obtain ⟨hmem, hname⟩ := mem_filterRulesByTag.mp hr
  have hfiled : ∀ r', r' ∈ filterRulesByTag rules tag ∧ r'.FiledUnder v ↔
      r' ∈ rules ∧ r'.FiledUnder v := by
    intro r'
    constructor
    · rintro ⟨hr', hunder⟩
      exact ⟨(mem_filterRulesByTag.mp hr').1, hunder⟩
    · rintro ⟨hr', hunder⟩
      have hdep : DependsOn rules r.name r'.name :=
        ⟨r, hmem, rfl, v, hv, Or.inl ⟨r', hr', hunder, rfl⟩⟩
      have hkept :=
        (keptNames_spec rules tag).2.1 r.name hname r'.name ((mem_edges_iff hn).mpr hdep)
      exact ⟨mem_filterRulesByTag.mpr ⟨hr', hkept⟩, hunder⟩
  unfold RefersTo
  simp only [← and_assoc, hfiled, ← not_and]

/-- A kept rule has the dependencies it had in the full list. -/
theorem getDependencies_kept {r : Rule} (hr : r ∈ filterRulesByTag rules tag) :
    getDependencies r.body (indexRulesByNamespace (filterRulesByTag rules tag)) =
      getDependencies r.body (indexRulesByNamespace rules) := by
  refine OrdSet.ext_mem fun dep => ?_
  rw [mem_getDependencies_iff, mem_getDependencies_iff]
  exact exists_congr fun v => and_congr_right fun hv => refersTo_kept hn hr hv

end

/-- What is kept of an admissible list is admissible, if it is anything. -/
theorem Admissible.filterRulesByTag (h : Admissible rules)
    (hne : filterRulesByTag rules tag ≠ []) : Admissible (filterRulesByTag rules tag) := by
  have hsub : (CapaX.filterRulesByTag rules tag).Sublist rules := List.filter_sublist
  have hdepends : ∀ a b, DependsOn (CapaX.filterRulesByTag rules tag) a b →
      DependsOn rules a b := by
    rintro a b ⟨r, hr, rfl, v, hv, hrefers⟩
    exact ⟨r, hsub.subset hr, rfl, v, hv, (refersTo_kept h.nodup hr hv).mp hrefers⟩
  refine ⟨hne, (hsub.map _).nodup h.nodup, fun a b hab => ?_, fun a hcycle => ?_⟩
  · have hedge := (mem_edges_iff h.nodup).mpr (hdepends a b hab)
    obtain ⟨r', hr', rfl⟩ := h.met a b (hdepends a b hab)
    obtain ⟨r, hr, rfl, -⟩ := hab
    have hname := (mem_filterRulesByTag.mp hr).2
    have hkept := (keptNames_spec rules tag).2.1 r.name hname r'.name hedge
    exact ⟨r', mem_filterRulesByTag.mpr ⟨hr', hkept⟩, rfl⟩
  · exact h.acyclic a (hcycle.lift id hdepends)

/-- A non-empty part that `filter_rules_by_tag` keeps of an accepted list is accepted; it is the
    least set with the tagged rules that is closed under the dependencies of the full list, and
    every kept rule has the same dependencies in it. -/
theorem filterRulesByTag_spec {set : RuleSet} (h : RuleSet.new rules = .ok set) (tag : String) :
    (filterRulesByTag rules tag).Sublist rules ∧
    IsLeast {kept | TagClosed rules tag kept} {r | r ∈ filterRulesByTag rules tag} ∧
    (∀ r ∈ filterRulesByTag rules tag,
      getDependencies r.body (indexRulesByNamespace (filterRulesByTag rules tag)) =
        getDependencies r.body (indexRulesByNamespace rules)) ∧
    (filterRulesByTag rules tag ≠ [] →
      ∃ kept, RuleSet.new (filterRulesByTag rules tag) = .ok kept) := by
  have hadmissible := RuleSet.admissible_of_new h
  exact ⟨List.filter_sublist, filterRulesByTag_isLeast hadmissible.nodup tag,
    fun r hr => getDependencies_kept hadmissible.nodup hr,
    fun hne => RuleSet.new_of_admissible (hadmissible.filterRulesByTag hne)⟩

/-- A tagged rule that matches a namespace, a rule in that namespace, and a third rule. -/
def taggedExample : List Rule :=
  let main := Rule.minimal "main" none ⟨some .function, none⟩ ⟨.leaf (.matchedRule "helper"), none⟩
  [{ main with «meta» := { main.meta with raw := [(.string "author", .string "dropper team")] } },
    .minimal "open file" (some "helper/file") ⟨some .function, none⟩ ⟨.leaf (.mnemonic "call"), none⟩,
    .minimal "other" none ⟨some .function, none⟩ ⟨.leaf (.mnemonic "xor"), none⟩]

/-- The rule in the namespace is kept with the tagged one. -/
theorem filterRulesByTag_spec_example :
    (filterRulesByTag taggedExample "dropper").map (·.name) = ["main", "open file"] ∧
      ∃ kept, RuleSet.new (filterRulesByTag taggedExample "dropper") = .ok kept := by
  have hnames :
      (filterRulesByTag taggedExample "dropper").map (·.name) = ["main", "open file"] := by
    decide
  refine ⟨hnames, (filterRulesByTag_spec rfl "dropper").2.2.2 fun hnil => ?_⟩
  rw [hnil] at hnames
  cases hnames

end CapaX
