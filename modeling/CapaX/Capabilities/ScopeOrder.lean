import CapaX.Capabilities.Names

/-
  The rule lists of the scopes. With distinct expanded names, none of them a namespace prefix, the
  list of a scope holds the rules of that scope that are needed (`Needed`), each once and after
  everything it depends on, however many rules of other scopes stand between (`ScopeOrder`). The
  two searches that make the list look at sets alone: which rule comes first does not depend on the
  order the rules were given in (`rulesForScope_congr`).
-/

namespace CapaX

open Collections Graphs Node Relation

/-- Some rule that does not declare itself a subscope rule is the named one or depends on it. -/
def Needed (es : List Rule) (name : String) : Prop :=
  ∃ u ∈ es, u.isSubscopeRule = false ∧ ReflTransGen (DependsOn es) u.name name

/-- A list of rule names for a scope: the needed rules of the scope, each once, and whatever one of
    them depends on before it. -/
structure ScopeOrder (es : List Rule) (scope : Scope) (names : List String) : Prop where
  nodup : names.Nodup
  rules : ∀ name ∈ names, ∃ e ∈ es, e.name = name
  mem_iff : ∀ e ∈ es, e.name ∈ names ↔ e.scopes.contains scope = true ∧ Needed es e.name
  depsFirst : ∀ a ∈ names, ∀ b ∈ names, TransGen (DependsOn es) a b →
    names.idxOf b < names.idxOf a

/-- Leaving out entries does not change which of two others comes first. -/
theorem idxOf_filter_lt {α : Type} [DecidableEq α] {p : α → Bool} {l : List α} {a b : α}
    (ha : p a = true) (hb : p b = true) (h : l.idxOf b < l.idxOf a) :
    (l.filter p).idxOf b < (l.filter p).idxOf a := by
  induction l with
  | nil => exact absurd h (Nat.lt_irrefl _)
  | cons x l ih =>
    by_cases hxb : x = b
    · subst hxb
      have hxa : x ≠ a := by
        rintro rfl
        exact Nat.lt_irrefl _ h
      rw [List.filter_cons_of_pos hb, List.idxOf_cons_self, List.idxOf_cons_ne _ hxa]
      omega
    · have hxa : x ≠ a := by
        rintro rfl
        rw [List.idxOf_cons_self] at h
        omega
      rw [List.idxOf_cons_ne _ hxa, List.idxOf_cons_ne _ hxb] at h
      have ih := ih (by omega)
      by_cases hx : p x = true
      · rw [List.filter_cons_of_pos hx, List.idxOf_cons_ne _ hxa, List.idxOf_cons_ne _ hxb]
        omega
      · rwa [List.filter_cons_of_neg hx]

section

variable {es es' : List Rule}

theorem mem_edges_iff (hn : (es.map (·.name)).Nodup) {a b : String} :
    b ∈ edges es a ↔ DependsOn es a b := by
  rw [← edge_iff hn, edges, successorsOf, Edge]
  cases dependenciesOf (indexByName es) (indexRulesByNamespace es) a with
  | none =>
    apply iff_of_false List.not_mem_nil
    intro hedge
    obtain ⟨ds, hds, -⟩ := hedge
    exact Option.some_ne_none ds hds.symm
  | some ds =>
    constructor
    · exact fun h => ⟨ds, rfl, h⟩
    · intro hedge
      obtain ⟨ds', hds, hb⟩ := hedge
      obtain rfl := Option.some.inj hds
      exact hb

theorem edges_eq (hn : (es.map (·.name)).Nodup) :
    (fun a b => b ∈ edges es a) = DependsOn es := by
  funext a b
  exact propext (mem_edges_iff hn)

/-- The closure the list of every scope is taken from holds exactly the needed names. -/
theorem mem_scopeRuleNames (hn : (es.map (·.name)).Nodup) {name : String} :
    name ∈ scopeRuleNames es (indexByName es) (indexRulesByNamespace es) ↔ Needed es name := by
  constructor
  · intro h
    obtain ⟨u, hu, hsub, hr⟩ := (Untangled.scopeRuleNames_spec es).2.2 name h
    refine ⟨u, hu, hsub, ?_⟩
    rw [← edges_eq hn]
    exact hr.reflTransGen
  · rintro ⟨u, hu, hsub, hr⟩
    obtain ⟨hstarts, hclosed, _⟩ := Untangled.scopeRuleNames_spec es
    induction hr with
    | refl => exact hstarts u hu hsub
    | tail _ hdep ih => exact hclosed _ ih _ ((mem_edges_iff hn).mpr hdep)

/-! ## The order of the given rules -/

theorem indexByName_perm (hp : es.Perm es') (hn : (es.map (·.name)).Nodup) (name : String) :
    (indexByName es).get? name = (indexByName es').get? name := by
  have hn' : (es'.map (·.name)).Nodup := (hp.map _).nodup_iff.mp hn
  cases hget : (indexByName es').get? name with
  | some e =>
    obtain ⟨he, rfl⟩ := indexByName_some hget
    exact indexByName_of_nodup hn (hp.mem_iff.mpr he)
  | none =>
    rw [← Option.not_isSome_iff_eq_none] at hget ⊢
    intro h
    obtain ⟨e, hrule⟩ := Option.isSome_iff_exists.mp h
    obtain ⟨he, rfl⟩ := indexByName_some hrule
    exact hget (indexByName_isSome (hp.mem_iff.mp he))

theorem len_indexByName (hn : (es.map (·.name)).Nodup) : (indexByName es).len = es.length := by
  have hpair : (es.map fun r => (r.name, r)).Pairwise fun a b => (a.1 == b.1) = false := by
    rw [List.pairwise_map]
    exact (List.pairwise_map.mp hn).imp fun hne => beq_eq_false_iff_ne.mpr hne
  rw [IndexMap.len, indexByName, IndexMap.entries_ofList hpair, List.length_map]

theorem getDependencies_perm (hp : es.Perm es') (n : Node) :
    getDependencies n (indexRulesByNamespace es) = getDependencies n (indexRulesByNamespace es') := by
  refine OrdSet.ext_mem fun d => ?_
  rw [mem_getDependencies_iff, mem_getDependencies_iff]
  simp only [RefersTo, hp.mem_iff]

theorem edges_perm (hp : es.Perm es') (hn : (es.map (·.name)).Nodup) : edges es = edges es' := by
  funext name
  rw [edges, edges, successorsOf, successorsOf, dependenciesOf, dependenciesOf,
    indexByName_perm hp hn]
  simp only [getDependencies_perm hp]

/-- The list of a scope is made from the set of the rules. -/
theorem rulesForScope_congr (hp : es.Perm es') (hn : (es.map (·.name)).Nodup) (scope : Scope) :
    rulesForScope es (indexByName es) (indexRulesByNamespace es) scope =
      rulesForScope es' (indexByName es') (indexRulesByNamespace es') scope := by
  have hn' : (es'.map (·.name)).Nodup := (hp.map _).nodup_iff.mp hn
  have hdeps : DependsOn es = DependsOn es' := by
    rw [← edges_eq hn, ← edges_eq hn', edges_perm hp hn]
  have hnames : scopeRuleNames es (indexByName es) (indexRulesByNamespace es) =
      scopeRuleNames es' (indexByName es') (indexRulesByNamespace es') := by
    refine OrdSet.ext_mem fun name => ?_
    rw [mem_scopeRuleNames hn, mem_scopeRuleNames hn', Needed, Needed, hdeps]
    simp only [hp.mem_iff]
  have htopo : ∀ names : OrdSet String,
      topoSortSubset names (indexByName es) (indexRulesByNamespace es) =
        topoSortSubset names (indexByName es') (indexRulesByNamespace es') := by
    intro names
    have hsucc : successorsOf (indexByName es) (indexRulesByNamespace es) = _ := edges_perm hp hn
    rw [topoSortSubset, topoSortSubset, hsucc, len_indexByName hn, len_indexByName hn',
      hp.length_eq]
  unfold rulesForScope
  rw [hnames, htopo]
  simp only [indexByName_perm hp hn]

end

section

variable [ComDatabase] {rules es : List Rule}

theorem Descends.perm {rules' : List Rule} (hp : rules'.Perm rules) {r : Rule}
    (h : Descends rules' r) : Descends rules r :=
  h.mono fun _ hr => .given (hp.mem_iff.mp hr)

/-- Rules given in another order expand to the same rules in another order. -/
theorem expandAndExtract_perm {rules' es' : List Rule} (hp : rules'.Perm rules)
    (hes : expandAndExtract rules = .ok es) (hes' : expandAndExtract rules' = .ok es')
    (hn : (es.map (·.name)).Nodup) : es.Perm es' := by
  have hnames : (es'.map (·.name)).Perm (es.map (·.name)) :=
    (expandAndExtract_names hes').trans
      ((hp.flatMap_right _).trans (expandAndExtract_names hes).symm)
  have hn' : (es'.map (·.name)).Nodup := hnames.nodup_iff.mpr hn
  refine (List.perm_ext_iff_of_nodup (.of_map _ hn) (.of_map _ hn')).mpr fun e => ?_
  rw [(expandAndExtract_spec hes).1, (expandAndExtract_spec hes').1]
  exact ⟨fun ⟨r, hr, hf⟩ => ⟨r, hr.perm hp.symm, hf⟩, fun ⟨r, hr, hf⟩ => ⟨r, hr.perm hp, hf⟩⟩

namespace Untangled

theorem acyclic (h : Untangled rules es) (name : String) :
    ¬ TransGen (DependsOn es) name name := by
  rw [← edges_eq h.nodup]
  exact h.edges_acyclic name

/-- In the order all scopes share, everything a rule depends on comes before it. -/
theorem topoSortSubset_before (h : Untangled rules es) {names : OrdSet String} {a b : String}
    (ha : a ∈ topoSortSubset names (indexByName es) (indexRulesByNamespace es))
    (hab : TransGen (DependsOn es) a b) :
    b ∈ topoSortSubset names (indexByName es) (indexRulesByNamespace es) ∧
      (topoSortSubset names (indexByName es) (indexRulesByNamespace es)).idxOf b <
        (topoSortSubset names (indexByName es) (indexRulesByNamespace es)).idxOf a := by
  obtain ⟨hdeps, _, _⟩ := h.topoSortSubset_spec names
  induction hab with
  | single hdep => exact hdeps.idxOf_lt ha ((mem_edges_iff h.nodup).mpr hdep)
  | tail _ hdep ih =>
    obtain ⟨hmem, hlt⟩ := ih
    obtain ⟨hmem', hlt'⟩ := hdeps.idxOf_lt hmem ((mem_edges_iff h.nodup).mpr hdep)
    exact ⟨hmem', hlt'.trans hlt⟩

/-- The second search reaches nothing the first one has not reached. -/
theorem mem_topoSortSubset (h : Untangled rules es) {name : String} :
    name ∈ topoSortSubset (scopeRuleNames es (indexByName es) (indexRulesByNamespace es))
      (indexByName es) (indexRulesByNamespace es) ↔ Needed es name := by
  rw [← mem_scopeRuleNames h.nodup]
  refine ⟨fun hmem => ?_, (h.topoSortSubset_spec _).2.2 name⟩
  exact postorderAll_closed (scopeRuleNames_spec es).2.1 (fun _ ha => ha) name hmem

theorem scopeOrder (h : Untangled rules es) (scope : Scope) :
    ScopeOrder es scope
      (rulesForScope es (indexByName es) (indexRulesByNamespace es) scope) := by
  have hget : ∀ {name}, ((indexByName es).get? name).any (fun r => r.scopes.contains scope) = true →
      ∃ e ∈ es, e.name = name ∧ e.scopes.contains scope = true := by
    intro name hany
    cases hrule : (indexByName es).get? name with
    | none => rw [hrule] at hany; cases hany
    | some e =>
      rw [hrule] at hany
      obtain ⟨hmem, hname⟩ := indexByName_some hrule
      exact ⟨e, hmem, hname, hany⟩
  unfold rulesForScope
  constructor
  · exact (h.topoSortSubset_spec _).2.1.filter _
  · intro name hname
    obtain ⟨e, he, hname, _⟩ := hget (List.mem_filter.mp hname).2
    exact ⟨e, he, hname⟩
  · intro e he
    rw [List.mem_filter, h.mem_topoSortSubset, h.index he, and_comm]
    rfl
  · intro a ha b hb hab
    obtain ⟨ha, hpa⟩ := List.mem_filter.mp ha
    exact idxOf_filter_lt hpa (List.mem_filter.mp hb).2 (h.topoSortSubset_before ha hab).2

/-- The rules extracted from a rule that does not declare itself a subscope rule are needed. -/
theorem needed_of_origin (h : Untangled rules es) {g r e : Rule} (hg : g ∈ rules)
    (hsub : g.isSubscopeRule = false) (hd : Descends [g] r) (hf : FinishesAs r e) :
    Needed es e.name :=
  (mem_scopeRuleNames h.nodup).mp (h.listed_of_origin hg hsub hd hf)

end Untangled

/-- With distinct expanded names, none of them a namespace prefix, the expanded rules depend on
    each other without a cycle; every scope of a rule set has the list of its needed rules in
    order, where everything that comes from a given rule without the subscope mark is needed; and
    the lists are the same for the rules in any other order. -/
theorem rulesByScope_ordered {set : MatchingRuleSet} (hset : MatchingRuleSet.new rules = .ok set)
    (hes : expandAndExtract rules = .ok es) (hn : (es.map (·.name)).Nodup)
    (hapart : ∀ e ∈ es, ∀ a ∈ es, e.name ∉ a.prefixes) :
    (∀ name, ¬ TransGen (DependsOn es) name name) ∧
    (∀ scope ∈ allScopes, ∃ names, set.rulesByScope.get? scope = some names ∧
      ScopeOrder es scope names) ∧
    (∀ g ∈ rules, g.isSubscopeRule = false → ∀ r e, Descends [g] r → FinishesAs r e →
      Needed es e.name) ∧
    ∀ rules' set', rules'.Perm rules → MatchingRuleSet.new rules' = .ok set' →
      ∀ scope, set'.rulesByScope.get? scope = set.rulesByScope.get? scope := by
  obtain ⟨haccepts, es0, hes0, rfl⟩ := MatchingRuleSet.new_ok hset
  obtain rfl : es0 = es := Except.ok.inj (hes0.symm.trans hes)
  have h : Untangled rules es0 := ⟨haccepts, hes0, hn, fun e _ v _ ⟨a, ha, hname⟩ b hb =>
    hname ▸ hapart a ha b hb⟩
  refine ⟨h.acyclic, fun scope hscope => ⟨_, ?_, h.scopeOrder scope⟩,
    fun g hg hsub r e hd hf => h.needed_of_origin hg hsub hd hf, fun rules' set' hp hset' scope => ?_⟩
  · rw [MatchingRuleSet.rulesByScope_ofExpanded, if_pos hscope]
  · obtain ⟨_, es', hes', rfl⟩ := MatchingRuleSet.new_ok hset'
    rw [MatchingRuleSet.rulesByScope_ofExpanded, MatchingRuleSet.rulesByScope_ofExpanded,
      rulesForScope_congr (expandAndExtract_perm hp hes hes' hn) hn]

end

theorem rulesByScope_ordered_nestedSubscopes : ∃ set es names,
    @MatchingRuleSet.new .empty nestedSubscopes = .ok set ∧
      @expandAndExtract .empty nestedSubscopes = .ok es ∧
      set.rulesByScope.get? .basicBlock = some names ∧ ScopeOrder es .basicBlock names := by
  obtain ⟨names, hnames, horder⟩ := (@rulesByScope_ordered .empty nestedSubscopes _ _ rfl rfl
    (by decide) (by decide)).2.1 .basicBlock (by decide)
  exact ⟨_, _, names, rfl, rfl, hnames, horder⟩

/-- A function rule whose `meta:` declares it a subscope rule. -/
def unasked : Rule :=
  let rule := Rule.minimal "hidden" none ⟨some .function, none⟩ ⟨.leaf (.api "CreateFile"), none⟩
  { rule with
    «meta» := { rule.meta with raw := [(.string "capa/subscope-rule", .bool true)] } }

/-- An accepted rule that is on no list of its scope: it declares itself a subscope rule, and no
    rule depends on it. -/
theorem unasked_not_listed : ∃ set es names, @MatchingRuleSet.new .empty [unasked] = .ok set ∧
    @expandAndExtract .empty [unasked] = .ok es ∧ (es.map (·.name)).Nodup ∧
    (∀ e ∈ es, ∀ a ∈ es, e.name ∉ a.prefixes) ∧
    set.rulesByScope.get? .function = some names ∧
    ∃ e ∈ es, e.scopes.contains .function = true ∧ e.name ∉ names := by
  refine ⟨_, _, _, rfl, rfl, by decide, by decide, rfl, ?_⟩
  exact ⟨_, List.mem_cons_self, by decide, by decide⟩

end CapaX
