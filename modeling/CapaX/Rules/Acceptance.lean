import CapaX.Rules.Graph

/-
  Which rule lists `RuleSet::new` accepts. The dependencies are stated over the rules themselves:
  `IsNamespacePrefix` says which texts are prefixes of a namespace, without the loop that lists
  them, and `RefersTo` which rules a match value stands for. `Admissible` collects what a list has
  to satisfy; `RuleSet.new_accepts_iff` is the equivalence, with the order an accepted list gets
  and the fact that the walk comes to an end on every list.
-/

namespace CapaX

open Collections Graphs

/-! ## Namespace prefixes -/

theorem beforeLastSlash_none {cs : List Char} (h : beforeLastSlash cs = none) : '/' ∉ cs := by
  induction cs with
  | nil => exact List.not_mem_nil
  | cons c cs ih =>
    unfold beforeLastSlash at h
    split at h
    · cases h
    · next hcs =>
      split at h
      · cases h
      · next hc => exact fun hmem => (List.mem_cons.mp hmem).elim (fun he => hc he.symm) (ih hcs)

theorem beforeLastSlash_some {cs p : List Char} (h : beforeLastSlash cs = some p) :
    ∃ rest, cs = p ++ '/' :: rest ∧ '/' ∉ rest := by
  induction cs generalizing p with
  | nil => cases h
  | cons c cs ih =>
    unfold beforeLastSlash at h
    split at h
    · next q hq =>
      obtain ⟨rest, rfl, hrest⟩ := ih hq
      obtain rfl := Option.some.inj h
      exact ⟨rest, rfl, hrest⟩
    · next hcs =>
      split at h
      · next hc =>
        obtain rfl := Option.some.inj h
        exact ⟨cs, by rw [hc]; rfl, beforeLastSlash_none hcs⟩
      · cases h

/-- Below a text stand the texts before each of its slashes: the last one first, then those of
    what stands before it. -/
theorem slash_iff {p q rest : List Char} (hrest : '/' ∉ rest) :
    (∃ r, q ++ '/' :: rest = p ++ '/' :: r) ↔ p = q ∨ ∃ r, q = p ++ '/' :: r := by
  constructor
  · intro ⟨r, he⟩
    rcases List.append_eq_append_iff.mp he with ⟨as, hp, hr⟩ | ⟨as, hq, hr⟩
    · cases as with
      | nil => exact Or.inl (by rw [hp, List.append_nil])
      | cons c as =>
        have hmem : '/' ∈ rest := by
          rw [(List.cons.inj hr).2]
          exact List.mem_append_right _ List.mem_cons_self
        exact absurd hmem hrest
    · cases as with
      | nil => exact Or.inl (by rw [hq, List.append_nil])
      | cons c as =>
        obtain ⟨rfl, hr⟩ := List.cons.inj hr
        exact Or.inr ⟨as, hq⟩
  · rintro (rfl | ⟨r, rfl⟩)
    · exact ⟨rest, rfl⟩
    · exact ⟨r ++ '/' :: rest, by rw [List.append_assoc]; rfl⟩

theorem mem_namespaceLoop {fuel : Nat} {cs p : List Char} (hf : cs.length < fuel) :
    p ∈ namespaceLoop fuel cs ↔ p ≠ [] ∧ (p = cs ∨ ∃ rest, cs = p ++ '/' :: rest) := by
  induction fuel generalizing cs with
  | zero => omega
  | succ fuel ih =>
    unfold namespaceLoop
    by_cases hnil : cs = []
    · subst hnil
      rw [List.isEmpty_nil, if_pos rfl]
      refine iff_of_false List.not_mem_nil ?_
      rintro ⟨hp, rfl | ⟨rest, he⟩⟩
      · exact hp rfl
      · cases p <;> cases he
    · have hempty : cs.isEmpty = false := List.isEmpty_eq_false_iff.mpr hnil
      rw [hempty, if_neg Bool.false_ne_true, List.mem_cons]
      cases hq : beforeLastSlash cs with
      | none =>
        constructor
        · rintro (rfl | h)
          · exact ⟨hnil, Or.inl rfl⟩
          · exact absurd h List.not_mem_nil
        · rintro ⟨_, rfl | ⟨rest, he⟩⟩
          · exact Or.inl rfl
          · refine absurd ?_ (beforeLastSlash_none hq)
            rw [he]
            exact List.mem_append_right _ List.mem_cons_self
      | some q =>
        have hlen := beforeLastSlash_length hq
        have ih : p ∈ namespaceLoop fuel q ↔ _ := ih (by omega)
        obtain ⟨rest, he, hrest⟩ := beforeLastSlash_some hq
        show p = cs ∨ p ∈ namespaceLoop fuel q ↔ _
        have hiff := slash_iff (p := p) (q := q) hrest
        rw [← he] at hiff
        rw [ih, hiff]
        constructor
        · rintro (rfl | ⟨hp, h⟩)
          · exact ⟨hnil, Or.inl rfl⟩
          · exact ⟨hp, Or.inr h⟩
        · rintro ⟨hp, h | h⟩
          · exact Or.inl h
          · exact Or.inr ⟨hp, h⟩

/-- A text that is not empty, and is the namespace or ends before one of its slashes. -/
def IsNamespacePrefix (p ns : String) : Prop := p ≠ "" ∧ (p = ns ∨ ∃ rest, ns = p ++ "/" ++ rest)

theorem mem_namespacePrefixes {p ns : String} :
    p ∈ namespacePrefixes ns ↔ IsNamespacePrefix p ns := by
  have hloop := mem_namespaceLoop (p := p.toList) (Nat.lt_succ_self ns.toList.length)
  have hmem : p ∈ namespacePrefixes ns ↔
      p.toList ∈ namespaceLoop (ns.toList.length + 1) ns.toList := by
    rw [namespacePrefixes, List.mem_map]
    constructor
    · rintro ⟨cs, hcs, rfl⟩
      rwa [String.toList_ofList]
    · exact fun h => ⟨p.toList, h, String.ofList_toList⟩
  have hempty : p.toList ≠ [] ↔ p ≠ "" := by
    rw [ne_eq, ne_eq, ← String.toList_inj]
    rfl
  have hslash : (∃ rest, ns.toList = p.toList ++ '/' :: rest) ↔ ∃ rest, ns = p ++ "/" ++ rest := by
    constructor
    · rintro ⟨rest, he⟩
      refine ⟨String.ofList rest, String.toList_inj.mp ?_⟩
      simp [he, String.toList_append]
    · rintro ⟨rest, rfl⟩
      exact ⟨rest.toList, by simp [String.toList_append]⟩
  rw [hmem, hloop, hempty, hslash, String.toList_inj, IsNamespacePrefix]

/-! ## Dependencies of a list of rules -/

section

variable (rules : List Rule)

/-- Some rule of the list is filed under the value. -/
def Rule.FiledUnder (r : Rule) (v : String) : Prop :=
  ∃ ns, r.namespace_ = some ns ∧ IsNamespacePrefix v ns

/-- What a match value stands for: the rules filed under it when there are any, and otherwise the
    rule of that name. -/
def RefersTo (v name : String) : Prop :=
  (∃ r ∈ rules, r.FiledUnder v ∧ r.name = name) ∨ (name = v ∧ ∀ r ∈ rules, ¬ r.FiledUnder v)

/-- A rule depends on what the match values anywhere in its body stand for. -/
def DependsOn (name dep : String) : Prop :=
  ∃ r ∈ rules, r.name = name ∧ ∃ v ∈ r.body.observed, RefersTo rules v dep

/-- What a rule list has to satisfy. -/
structure Admissible : Prop where
  nonempty : rules ≠ []
  nodup : (rules.map (·.name)).Nodup
  met : ∀ name dep, DependsOn rules name dep → ∃ r ∈ rules, r.name = dep
  acyclic : ∀ name, ¬ Relation.TransGen (DependsOn rules) name name

end

theorem Rule.mem_prefixes_iff {r : Rule} {v : String} : v ∈ r.prefixes ↔ r.FiledUnder v := by
  unfold Rule.prefixes Rule.FiledUnder
  cases r.namespace_ with
  | none => exact iff_of_false List.not_mem_nil fun ⟨_, h, _⟩ => (nomatch h)
  | some ns =>
    refine mem_namespacePrefixes.trans ⟨fun h => ⟨ns, rfl, h⟩, fun ⟨ns', h, hp⟩ => ?_⟩
    rwa [Option.some.inj h]

variable {rules : List Rule}

/-- The walk over the body and the namespace index compute the dependencies. -/
theorem mem_getDependencies_iff {n : Node} {d : String} :
    d ∈ getDependencies n (indexRulesByNamespace rules) ↔ ∃ v ∈ n.observed, RefersTo rules v d := by
  rw [mem_getDependencies]
  refine exists_congr fun v => and_congr_right fun _ => ?_
  rw [mem_referents, RefersTo]
  simp only [Rule.mem_prefixes_iff]

/-- With distinct names, the graph the walk sees is that of the dependencies. -/
theorem edge_iff (hn : (rules.map (·.name)).Nodup) {a b : String} :
    Edge (dependenciesOf (indexByName rules) (indexRulesByNamespace rules)) a b ↔
      DependsOn rules a b := by
  unfold Edge dependenciesOf DependsOn
  constructor
  · rintro ⟨ds, hds, hb⟩
    obtain ⟨r, hr, rfl⟩ := Option.map_eq_some_iff.mp hds
    obtain ⟨hmem, hname⟩ := indexByName_some hr
    exact ⟨r, hmem, hname, mem_getDependencies_iff.mp hb⟩
  · rintro ⟨r, hr, rfl, hv⟩
    refine ⟨_, by rw [indexByName_of_nodup hn hr]; rfl, ?_⟩
    exact mem_getDependencies_iff.mpr hv

theorem dependenciesOf_isSome {a : String} :
    (dependenciesOf (indexByName rules) (indexRulesByNamespace rules) a).isSome ↔
      ∃ r ∈ rules, r.name = a := by
  rw [dependenciesOf, Option.isSome_map]
  constructor
  · intro h
    obtain ⟨r, hr⟩ := Option.isSome_iff_exists.mp h
    exact ⟨r, indexByName_some hr⟩
  · rintro ⟨r, hr, rfl⟩
    exact indexByName_isSome hr

theorem dependenciesOf_eq_none {a : String} (h : a ∉ rules.map (·.name)) :
    dependenciesOf (indexByName rules) (indexRulesByNamespace rules) a = none := by
  rw [← Option.not_isSome_iff_eq_none, dependenciesOf_isSome]
  rintro ⟨r, hr, rfl⟩
  exact h (List.mem_map.mpr ⟨r, hr, rfl⟩)

/-! ## The checks succeed -/

theorem ensureRulesAreUnique_of_nodup {seen : OrdSet String} (hn : (rules.map (·.name)).Nodup)
    (hs : ∀ r ∈ rules, r.name ∉ seen) : ensureRulesAreUnique seen rules = .ok () := by
  induction rules generalizing seen with
  | nil => rfl
  | cons r rest ih =>
    obtain ⟨hr, hrest⟩ := List.nodup_cons.mp hn
    rw [ensureRulesAreUnique, if_neg (hs r List.mem_cons_self)]
    refine ih hrest fun r' hr' hmem => ?_
    rcases OrdSet.mem_insert.mp hmem with he | hmem
    · exact hr (List.mem_map.mpr ⟨r', hr', he⟩)
    · exact hs r' (List.mem_cons_of_mem _ hr') hmem

theorem ensureRuleDependenciesAreMet_of_met
    (h : ∀ name dep, DependsOn rules name dep → ∃ r ∈ rules, r.name = dep) :
    ensureRuleDependenciesAreMet rules (indexRulesByNamespace rules) = .ok () := by
  refine Control.forM_of_ok fun r hr => Control.forM_of_ok fun d hd => if_pos ?_
  obtain ⟨r', hr', he⟩ := h r.name d ⟨r, hr, rfl, mem_getDependencies_iff.mp hd⟩
  exact OrdSet.mem_ofList.mpr (List.mem_map.mpr ⟨r', hr', he⟩)

/-- The texts of the two errors of the walk. -/
def circularError (name : String) : RuleError :=
  .invalid s!"rule \"{name}\" has a circular dependency"

@[inherit_doc circularError] def missingError (name : String) : RuleError :=
  .invalid s!"rule \"{name}\" depends on missing rule"

theorem topologicallyOrderRules_eq (rules : List Rule) (namespaces : Namespaces) :
    topologicallyOrderRules rules namespaces =
      ((rules.map (·.name)).foldlM (fun s name =>
        visit (dependenciesOf (indexByName rules) namespaces) circularError missingError
          (rules.length + 1) name s) ⟨∅, []⟩).map (·.order) := by
  rw [topologicallyOrderRules, List.foldlM_map]
  rfl

theorem empty_good {α : Type} [LinearOrder α] {deps : α → Option (List α)} :
    Marking.Good deps ⟨∅, []⟩ :=
  ⟨fun _ => iff_of_false (fun h => (nomatch h)) List.not_mem_nil,
    fun _ h => absurd h List.not_mem_nil, List.nodup_nil, .nil⟩

theorem unmarked_lt (s : Marking String) :
    unmarked (rules.map (·.name)) s < rules.length + 1 := by
  have hle : unmarked (rules.map (·.name)) s ≤ (rules.map (·.name)).length :=
    List.length_filter_le _ _
  rw [List.length_map] at hle
  omega

/-- No walk over an admissible list fails. -/
theorem topologicallyOrderRules_of_admissible (h : Admissible rules) :
    ∃ order, topologicallyOrderRules rules (indexRulesByNamespace rules) = .ok order := by
  have hacyclic : ∀ a, ¬ Relation.TransGen (Edge (dependenciesOf (indexByName rules)
      (indexRulesByNamespace rules))) a a := fun a ha =>
    h.acyclic a (ha.lift id fun _ _ => (edge_iff h.nodup).mp)
  rw [topologicallyOrderRules_eq]
  have hloop : ∃ s, (rules.map (·.name)).foldlM (fun s name =>
      visit (dependenciesOf (indexByName rules) (indexRulesByNamespace rules)) circularError
        missingError (rules.length + 1) name s) ⟨∅, []⟩ = .ok s ∧
      s.Good (dependenciesOf (indexByName rules) (indexRulesByNamespace rules)) ∧
      ∀ x, s.marks.get? x ≠ some .visiting := by
    refine Control.foldlM_ok ⟨empty_good, fun x hx => (nomatch hx)⟩ fun a ha s ⟨hg, hv⟩ => ?_
    obtain ⟨r, hr, rfl⟩ := List.mem_map.mp ha
    have hvisit : ∃ s', visit (dependenciesOf (indexByName rules) (indexRulesByNamespace rules))
        circularError missingError (rules.length + 1) r.name s = .ok s' :=
      visit_ok (fun _ => dependenciesOf_eq_none) hacyclic
        (fun a b hab => dependenciesOf_isSome.mpr (h.met a b ((edge_iff h.nodup).mp hab))) hg
        (dependenciesOf_isSome.mpr ⟨r, hr, rfl⟩) (unmarked_lt s) fun x hx => absurd hx (hv x)
    obtain ⟨s', hs'⟩ := hvisit
    obtain ⟨he, hg', _⟩ := visit_spec hs' hg
    exact ⟨s', hs', hg', fun x hx => hv x ((he.visiting x).mp hx)⟩
  obtain ⟨s, hs, _⟩ := hloop
  rw [hs]
  exact ⟨_, rfl⟩

theorem RuleSet.new_of_admissible (h : Admissible rules) :
    ∃ set, RuleSet.new rules = .ok set := by
  obtain ⟨order, horder⟩ := topologicallyOrderRules_of_admissible h
  have hunique : ensureRulesAreUnique ∅ rules = .ok () :=
    ensureRulesAreUnique_of_nodup h.nodup fun r _ => OrdSet.not_mem_empty r.name
  have hempty : rules.isEmpty = false := List.isEmpty_eq_false_iff.mpr h.nonempty
  refine ⟨⟨indexByName rules, indexRulesByNamespace rules, order⟩, ?_⟩
  rw [RuleSet.new, hunique]
  show (if rules.isEmpty then _ else _) = _
  rw [hempty, if_neg Bool.false_ne_true, ensureRuleDependenciesAreMet_of_met h.met]
  show (topologicallyOrderRules rules (indexRulesByNamespace rules) >>= _) = _
  rw [horder]
  rfl

/-! ## What the checks say -/

theorem RuleSet.new_evalOrder {set : RuleSet} (h : RuleSet.new rules = .ok set) :
    topologicallyOrderRules rules (indexRulesByNamespace rules) = .ok set.evalOrder := by
  unfold RuleSet.new at h
  obtain ⟨⟨⟩, _, h⟩ := Control.bind_eq_ok.mp h
  split at h
  · cases h
  · obtain ⟨⟨⟩, _, h⟩ := Control.bind_eq_ok.mp h
    obtain ⟨order, horder, h⟩ := Control.bind_eq_ok.mp h
    obtain rfl := Except.ok.inj h
    exact horder

/-- The order the walk returns: every rule once, and after what it depends on. -/
structure IsEvalOrder (rules : List Rule) (order : List String) : Prop where
  perm : order.Perm (rules.map (·.name))
  depsFirst : ∀ name dep, DependsOn rules name dep → order.idxOf dep < order.idxOf name

theorem topologicallyOrderRules_spec (hn : (rules.map (·.name)).Nodup) {order : List String}
    (h : topologicallyOrderRules rules (indexRulesByNamespace rules) = .ok order) :
    IsEvalOrder rules order := by
  rw [topologicallyOrderRules_eq] at h
  obtain ⟨s, hs, rfl⟩ := Control.map_eq_ok h
  obtain ⟨hgood, hmem⟩ := visitAll_spec hs
  constructor
  · refine (List.perm_ext_iff_of_nodup hgood.nodup hn).mpr fun a => ⟨fun ha => ?_, hmem a⟩
    obtain ⟨r, hr, rfl⟩ := dependenciesOf_isSome.mp (hgood.known a ha)
    exact List.mem_map.mpr ⟨r, hr, rfl⟩
  · intro name dep hdep
    obtain ⟨ds, hds, hmem'⟩ := (edge_iff hn).mpr hdep
    have hname : name ∈ s.order := by
      obtain ⟨r, hr, rfl, _⟩ := hdep
      exact hmem r.name (List.mem_map.mpr ⟨r, hr, rfl⟩)
    exact (hgood.depsFirst.idxOf_lt hname (by rw [hds]; exact hmem')).2

theorem RuleSet.admissible_of_new {set : RuleSet} (h : RuleSet.new rules = .ok set) :
    Admissible rules := by
  have haccepts := RuleSet.new_ok h
  have horder := topologicallyOrderRules_spec haccepts.nodup (RuleSet.new_evalOrder h)
  refine ⟨haccepts.nonempty, haccepts.nodup, fun name dep hdep => ?_, fun name hcycle => ?_⟩
  · obtain ⟨r, hr, _, hv⟩ := hdep
    exact haccepts.met r hr dep (mem_getDependencies_iff.mpr hv)
  · -- along a chain of dependencies the position in the order falls
    have hfall : ∀ a b, Relation.TransGen (DependsOn rules) a b →
        set.evalOrder.idxOf b < set.evalOrder.idxOf a := by
      intro a b hab
      induction hab with
      | single hdep => exact horder.depsFirst _ _ hdep
      | tail _ hdep ih => exact (horder.depsFirst _ _ hdep).trans ih
    exact absurd (hfall name name hcycle) (Nat.lt_irrefl _)

/-- A rule list is accepted exactly when it is admissible; an accepted list is ordered with every
    rule once and after its dependencies; and the walk that orders the rules returns on every
    list, whatever its graph. -/
theorem RuleSet.new_accepts_iff (rules : List Rule) :
    ((∃ set, RuleSet.new rules = .ok set) ↔ Admissible rules) ∧
    (∀ set, RuleSet.new rules = .ok set → IsEvalOrder rules set.evalOrder) ∧
    ∃ run, VisitsReturn (dependenciesOf (indexByName rules) (indexRulesByNamespace rules))
        circularError missingError (rules.map (·.name)) ⟨∅, []⟩ run ∧
      topologicallyOrderRules rules (indexRulesByNamespace rules) = run.map (·.order) := by
  refine ⟨⟨fun ⟨_, h⟩ => RuleSet.admissible_of_new h, RuleSet.new_of_admissible⟩,
    fun set h => topologicallyOrderRules_spec (RuleSet.new_ok h).nodup (RuleSet.new_evalOrder h),
    _, ?_, topologicallyOrderRules_eq rules _⟩
  refine VisitsReturn.of_foldlM (P := fun s => s.Good (dependenciesOf (indexByName rules)
    (indexRulesByNamespace rules))) (fun a s hg => ⟨?_, fun s' hs' => (visit_spec hs' hg).2.1⟩)
    empty_good
  exact visit_returns (fun _ => dependenciesOf_eq_none) hg (unmarked_lt s)

end CapaX
