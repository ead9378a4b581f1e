import CapaX.Collections.IndexMap
import CapaX.Graphs.Dfs
import CapaX.Rules.Rule
import Mathlib.Data.String.Basic

/-
  The rule dependency graph (`rules/graph.rs`): what a body depends on, the index of rules by
  namespace, and the checks a rule list has to pass. `RuleSet.new_ok` says what an accepted list
  satisfies: distinct names, no missing dependency, and an order of the names in which every
  rule stands after its dependencies.
-/

namespace CapaX

open Collections Graphs

/-! ## Namespaces -/

/-- What stands before the last `/`, `rfind('/')` and the slice before it. -/
def beforeLastSlash : List Char → Option (List Char)
  | [] => none
  | c :: cs =>
    match beforeLastSlash cs with
    | some p => some (c :: p)
    | none => if c = '/' then some [] else none

theorem beforeLastSlash_length {cs p : List Char} (h : beforeLastSlash cs = some p) :
    p.length < cs.length := by
  induction cs generalizing p with
  | nil => cases h
  | cons c cs ih =>
    unfold beforeLastSlash at h
    split at h
    · next q hq =>
      rw [← Option.some.inj h]
      exact Nat.succ_lt_succ (ih hq)
    · split at h
      · rw [← Option.some.inj h]
        exact Nat.succ_pos _
      · cases h

/-- The loop of `index_rules_by_namespace`: a text, what stands before its last `/`, and so on
    until there is no `/` or nothing is left. -/
def namespaceLoop : Nat → List Char → List (List Char)
  | 0, _ => []
  | fuel + 1, current =>
    if current.isEmpty then []
    else
      current :: match beforeLastSlash current with
        | some p => namespaceLoop fuel p
        | none => []

/-- The namespaces `index_rules_by_namespace` files a rule under. -/
def namespacePrefixes (ns : String) : List String :=
  (namespaceLoop (ns.toList.length + 1) ns.toList).map String.ofList

/-- Namespace prefix to rule names. -/
abbrev Namespaces := IndexMap String (List String)

def indexRulesByNamespace (rules : List Rule) : Namespaces :=
  rules.foldl (fun namespaces rule =>
    match rule.namespace_ with
    | none => namespaces
    | some ns => (namespacePrefixes ns).foldl (fun namespaces current =>
        namespaces.upsert current fun names => names.getD [] ++ [rule.name]) namespaces) ∅

/-! ## Dependencies -/

/-- A namespace takes precedence over a rule name. -/
def register (value : String) (namespaces : Namespaces) (deps : OrdSet String) : OrdSet String :=
  match namespaces.get? value with
  | some names => deps.insertAll names
  | none => deps.insert value

mutual

def walk (namespaces : Namespaces) : Node → OrdSet String → OrdSet String
  | ⟨.leaf (.matchedRule value), _⟩, deps => register value namespaces deps
  | ⟨.leaf _, _⟩, deps => deps
  | ⟨.and children, _⟩, deps => walkAll namespaces children deps
  | ⟨.or children, _⟩, deps => walkAll namespaces children deps
  | ⟨.some _ children, _⟩, deps => walkAll namespaces children deps
  | ⟨.not child, _⟩, deps => walk namespaces child deps
  | ⟨.subscope _ body, _⟩, deps => walk namespaces body deps
  | ⟨.range (.matchedRule value) _ _, _⟩, deps => register value namespaces deps
  | ⟨.range _ _ _, _⟩, deps => deps

def walkAll (namespaces : Namespaces) : List Node → OrdSet String → OrdSet String
  | [], deps => deps
  | c :: cs, deps => walkAll namespaces cs (walk namespaces c deps)

end

def getDependencies (body : Node) (namespaces : Namespaces) : OrdSet String :=
  walk namespaces body ∅

/-- The rules a match value refers to. -/
def referents (namespaces : Namespaces) (value : String) : List String :=
  (namespaces.get? value).getD [value]

theorem mem_register {value : String} {namespaces : Namespaces} {deps : OrdSet String}
    {x : String} : x ∈ register value namespaces deps ↔
      x ∈ deps ∨ x ∈ referents namespaces value := by
  unfold register referents
  cases namespaces.get? value with
  | some names => exact OrdSet.mem_insertAll
  | none => rw [OrdSet.mem_insert, Option.getD_none, List.mem_singleton, or_comm]

theorem mem_walkAll {namespaces : Namespaces} {x : String} {cs : List Node}
    (h : ∀ c ∈ cs, ∀ deps, x ∈ walk namespaces c deps ↔
      x ∈ deps ∨ ∃ v ∈ c.observed, x ∈ referents namespaces v) (deps : OrdSet String) :
    x ∈ walkAll namespaces cs deps ↔
      x ∈ deps ∨ ∃ v, (∃ c ∈ cs, v ∈ c.observed) ∧ x ∈ referents namespaces v := by
  induction cs generalizing deps with
  | nil => simp [walkAll]
  | cons c cs ih =>
    rw [walkAll, ih fun c' hc => h c' (List.mem_cons_of_mem _ hc), h c List.mem_cons_self,
      or_assoc]
    refine or_congr_right ?_
    constructor
    · rintro (⟨v, hv, hx⟩ | ⟨v, ⟨c', hc, hv⟩, hx⟩)
      · exact ⟨v, ⟨c, List.mem_cons_self, hv⟩, hx⟩
      · exact ⟨v, ⟨c', List.mem_cons_of_mem _ hc, hv⟩, hx⟩
    · rintro ⟨v, ⟨c', hc, hv⟩, hx⟩
      rcases List.mem_cons.mp hc with rfl | hc
      · exact Or.inl ⟨v, hv, hx⟩
      · exact Or.inr ⟨v, ⟨c', hc, hv⟩, hx⟩

theorem mem_walk {namespaces : Namespaces} {x : String} (n : Node) (deps : OrdSet String) :
    x ∈ walk namespaces n deps ↔ x ∈ deps ∨ ∃ v ∈ n.observed, x ∈ referents namespaces v := by
  induction n using Node.induct generalizing deps with
  | and cs d ih =>
    rw [walk, mem_walkAll ih]
    simp only [Node.mem_observed_and]
  | or cs d ih =>
    rw [walk, mem_walkAll ih]
    simp only [Node.mem_observed_or]
  | some _ cs d ih =>
    rw [walk, mem_walkAll ih]
    simp only [Node.mem_observed_some]
  | not c d ih =>
    rw [walk, ih]
    simp only [Node.mem_observed_not]
  | subscope _ b d ih =>
    rw [walk, ih]
    simp only [Node.mem_observed_subscope]
  | range f _ _ d =>
    simp only [Node.mem_observed_range]
    unfold walk
    split <;> simp_all [mem_register]
  | leaf f d =>
    simp only [Node.mem_observed_leaf]
    unfold walk
    split <;> simp_all [mem_register]

/-- The dependencies of a body are the rules its match values refer to. -/
theorem mem_getDependencies {namespaces : Namespaces} {x : String} {n : Node} :
    x ∈ getDependencies n namespaces ↔ ∃ v ∈ n.observed, x ∈ referents namespaces v := by
  rw [getDependencies, mem_walk]
  exact or_iff_right (OrdSet.not_mem_empty x)

/-! ## The namespace index -/

/-- The prefixes a rule is filed under. -/
def Rule.prefixes (rule : Rule) : List String :=
  match rule.namespace_ with
  | none => []
  | some ns => namespacePrefixes ns

theorem indexRulesByNamespace_eq (rules : List Rule) :
    indexRulesByNamespace rules =
      IndexMap.group (rules.flatMap fun r => r.prefixes.map fun p => (p, r.name)) := by
  rw [IndexMap.group, List.foldl_flatMap, indexRulesByNamespace]
  refine congrArg (fun f => List.foldl f ∅ rules) ?_
  funext namespaces rule
  rw [List.foldl_map, Rule.prefixes]
  cases rule.namespace_ <;> rfl

theorem mem_valuesOf_prefixes {rules : List Rule} {p x : String} :
    x ∈ IndexMap.valuesOf (rules.flatMap fun r => r.prefixes.map fun p => (p, r.name)) p ↔
      ∃ r ∈ rules, p ∈ r.prefixes ∧ r.name = x := by
  rw [IndexMap.mem_valuesOf]
  constructor
  · rintro ⟨e, he, hp, rfl⟩
    obtain ⟨r, hr, he⟩ := List.mem_flatMap.mp he
    obtain ⟨q, hq, rfl⟩ := List.mem_map.mp he
    obtain rfl : q = p := eq_of_beq hp
    exact ⟨r, hr, hq, rfl⟩
  · rintro ⟨r, hr, hp, rfl⟩
    exact ⟨(p, r.name), List.mem_flatMap.mpr ⟨r, hr, List.mem_map.mpr ⟨p, hp, rfl⟩⟩,
      beq_self_eq_true p, rfl⟩

/-- A match value refers to the rules filed under it, or, when there is none, to the rule of
    that name. -/
theorem mem_referents {rules : List Rule} {v x : String} :
    x ∈ referents (indexRulesByNamespace rules) v ↔
      (∃ r ∈ rules, v ∈ r.prefixes ∧ r.name = x) ∨ (x = v ∧ ∀ r ∈ rules, v ∉ r.prefixes) := by
  rw [referents, indexRulesByNamespace_eq, IndexMap.get?_group, ← mem_valuesOf_prefixes]
  have hnil : IndexMap.valuesOf (rules.flatMap fun r => r.prefixes.map fun p => (p, r.name)) v = []
      ↔ ∀ r ∈ rules, v ∉ r.prefixes := by
    rw [List.eq_nil_iff_forall_not_mem]
    simp only [mem_valuesOf_prefixes, not_exists, not_and]
    exact ⟨fun h r hr hv => h r.name r hr hv rfl, fun h x r hr hv _ => h r hr hv⟩
  by_cases hv : ∀ r ∈ rules, v ∉ r.prefixes
  · rw [if_pos (hnil.mpr hv), hnil.mpr hv, Option.getD_none, List.mem_singleton]
    exact ⟨fun h => Or.inr ⟨h, hv⟩, fun h => (h.resolve_left List.not_mem_nil).1⟩
  · rw [if_neg (mt hnil.mp hv), Option.getD_some]
    exact (or_iff_left fun h => hv h.2).symm

/-! ## The checks -/

/-- The rules by name; where two have one name, the later one. -/
def indexByName (rules : List Rule) : IndexMap String Rule :=
  .ofList (rules.map fun r => (r.name, r))

theorem indexByName_some {rules : List Rule} {name : String} {r : Rule}
    (h : (indexByName rules).get? name = some r) : r ∈ rules ∧ r.name = name := by
  obtain ⟨e, he, hr, hk⟩ := IndexMap.mem_of_get?_ofList h
  obtain ⟨r', hr', rfl⟩ := List.mem_map.mp he
  obtain rfl : r' = r := hr
  exact ⟨hr', eq_of_beq hk⟩

theorem indexByName_isSome {rules : List Rule} {r : Rule} (h : r ∈ rules) :
    ((indexByName rules).get? r.name).isSome :=
  IndexMap.get?_ofList_isSome (List.mem_map.mpr ⟨r, h, rfl⟩) (beq_self_eq_true r.name)

/-- With distinct names the index finds every rule. -/
theorem indexByName_of_nodup {rules : List Rule} (hn : (rules.map (·.name)).Nodup) {r : Rule}
    (h : r ∈ rules) : (indexByName rules).get? r.name = some r := by
  have hpair : (rules.map fun r => (r.name, r)).Pairwise fun a b => (a.1 == b.1) = false := by
    rw [List.pairwise_map]
    exact (List.pairwise_map.mp hn).imp fun hne => beq_eq_false_iff_ne.mpr hne
  exact IndexMap.get?_ofList hpair (List.mem_map.mpr ⟨r, h, rfl⟩) (beq_self_eq_true r.name)

/-- The dependencies of the rule of a name, in sorted order; `none` for a name no rule has. -/
def dependenciesOf (byName : IndexMap String Rule) (namespaces : Namespaces) (name : String) :
    Option (List String) :=
  (byName.get? name).map fun rule => (getDependencies rule.body namespaces).toList

def ensureRulesAreUnique (seen : OrdSet String) : List Rule → Except RuleError Unit
  | [] => .ok ()
  | rule :: rest =>
    if rule.name ∈ seen then .error (.invalid s!"duplicate rule name: {rule.name}")
    else ensureRulesAreUnique (seen.insert rule.name) rest

def ensureRuleDependenciesAreMet (rules : List Rule) (namespaces : Namespaces) :
    Except RuleError Unit :=
  let byName := OrdSet.ofList (rules.map (·.name))
  rules.forM fun rule =>
    (getDependencies rule.body namespaces).toList.forM fun dep =>
      if dep ∈ byName then .ok ()
      else .error (.invalid s!"rule \"{rule.name}\" depends on missing rule \"{dep}\"")

/-- `topologically_order_rules`: the nested visits number at most one for each rule, and one for
    the dependency that closes a cycle (`visit_fuel`). -/
def topologicallyOrderRules (rules : List Rule) (namespaces : Namespaces) :
    Except RuleError (List String) := do
  let s ← rules.foldlM (fun s rule =>
    visit (dependenciesOf (indexByName rules) namespaces)
      (fun name => RuleError.invalid s!"rule \"{name}\" has a circular dependency")
      (fun name => RuleError.invalid s!"rule \"{name}\" depends on missing rule")
      (rules.length + 1) rule.name s) ⟨∅, []⟩
  return s.order

structure RuleSet where
  rules : IndexMap String Rule
  byNamespacePrefix : Namespaces
  /-- dependency-first topological order of rule names -/
  evalOrder : List String

def RuleSet.new (rules : List Rule) : Except RuleError RuleSet := do
  ensureRulesAreUnique ∅ rules
  if rules.isEmpty then .error (.invalidRuleSet "no rules selected")
  else
    let byNamespacePrefix := indexRulesByNamespace rules
    ensureRuleDependenciesAreMet rules byNamespacePrefix
    let evalOrder ← topologicallyOrderRules rules byNamespacePrefix
    return ⟨indexByName rules, byNamespacePrefix, evalOrder⟩

/-! ## What acceptance means -/

theorem ensureRulesAreUnique_ok {seen : OrdSet String} {rules : List Rule}
    (h : ensureRulesAreUnique seen rules = .ok ()) :
    (rules.map (·.name)).Nodup ∧ ∀ r ∈ rules, r.name ∉ seen := by
  induction rules generalizing seen with
  | nil => exact ⟨List.nodup_nil, fun _ hr => absurd hr List.not_mem_nil⟩
  | cons rule rest ih =>
    unfold ensureRulesAreUnique at h
    split at h
    · cases h
    · next hseen =>
      obtain ⟨hn, hs⟩ := ih h
      refine ⟨List.nodup_cons.mpr ⟨fun hmem => ?_, hn⟩, fun r hr => ?_⟩
      · obtain ⟨r, hr, he⟩ := List.mem_map.mp hmem
        exact hs r hr (OrdSet.mem_insert.mpr (Or.inl he))
      · rcases List.mem_cons.mp hr with rfl | hr
        · exact hseen
        · exact fun h => hs r hr (OrdSet.mem_insert.mpr (Or.inr h))

theorem ensureRuleDependenciesAreMet_ok {rules : List Rule} {namespaces : Namespaces}
    (h : ensureRuleDependenciesAreMet rules namespaces = .ok ()) :
    ∀ r ∈ rules, ∀ d ∈ getDependencies r.body namespaces, ∃ r' ∈ rules, r'.name = d := by
  intro r hr d hd
  have hdep := Control.forM_ok (Control.forM_ok h r hr) d hd
  by_cases hmem : d ∈ OrdSet.ofList (rules.map (·.name))
  · exact List.mem_map.mp (OrdSet.mem_ofList.mp hmem)
  · rw [if_neg hmem] at hdep
    cases hdep

/-- The rule list passes every check of `RuleSet.new`. -/
structure RuleSet.Accepts (rules : List Rule) : Prop where
  nodup : (rules.map (·.name)).Nodup
  nonempty : rules ≠ []
  met : ∀ r ∈ rules, ∀ d ∈ getDependencies r.body (indexRulesByNamespace rules),
    ∃ r' ∈ rules, r'.name = d
  /-- Some order of the names has every rule after its dependencies. -/
  ordered : ∃ order : List String, (∀ r ∈ rules, r.name ∈ order) ∧
    ∀ r ∈ rules, ∀ d ∈ getDependencies r.body (indexRulesByNamespace rules),
      order.idxOf d < order.idxOf r.name

theorem RuleSet.new_ok {rules : List Rule} {set : RuleSet} (h : RuleSet.new rules = .ok set) :
    RuleSet.Accepts rules := by
  unfold RuleSet.new at h
  obtain ⟨⟨⟩, hunique, h⟩ := Control.bind_eq_ok.mp h
  split at h
  · cases h
  · next hne =>
    obtain ⟨⟨⟩, hmet, h⟩ := Control.bind_eq_ok.mp h
    obtain ⟨order, horder, _⟩ := Control.bind_eq_ok.mp h
    unfold topologicallyOrderRules at horder
    obtain ⟨s, hs, he⟩ := Control.bind_eq_ok.mp horder
    obtain rfl : s.order = order := Except.ok.inj he
    have hn := (ensureRulesAreUnique_ok hunique).1
    have hall : (rules.map (·.name)).foldlM (fun s name =>
        visit (dependenciesOf (indexByName rules) (indexRulesByNamespace rules)) _ _
          (rules.length + 1) name s) ⟨∅, []⟩ = .ok s := (List.foldlM_map ..).trans hs
    obtain ⟨hgood, hmem⟩ := visitAll_spec hall
    refine ⟨hn, fun h => hne (by rw [h]; rfl), ensureRuleDependenciesAreMet_ok hmet, s.order,
      fun r hr => hmem r.name (List.mem_map.mpr ⟨r, hr, rfl⟩), fun r hr d hd => ?_⟩
    refine (hgood.depsFirst.idxOf_lt (hmem r.name (List.mem_map.mpr ⟨r, hr, rfl⟩)) ?_).2
    rw [dependenciesOf, indexByName_of_nodup hn hr]
    exact hd

end CapaX
