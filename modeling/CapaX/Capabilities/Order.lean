import CapaX.Capabilities.Matching

/-
  The order the rules of a scope are matched in. When the names of an expanded list are kept
  apart (`NamesApart`), the dependencies between its rules have no cycle (`edges_acyclic`): along
  a dependency the given rule moves down the order `RuleSet.new` checked, or it stays and the
  rule moves into one of its subscopes. The rules of a scope then stand after every rule that
  publishes what they look at (`publishers_first`), and what a run records is stable on the
  features it returns (`matchScope_stable`).
-/

namespace CapaX

open Collections Graphs Node

/-- The names of an expanded list are pairwise distinct, and no value a rule looks at is both
    the name of a rule and a namespace. -/
structure NamesApart (es : List Rule) : Prop where
  nodup : (es.map (·.name)).Nodup
  apart : ∀ e ∈ es, ∀ v ∈ e.body.observed, ∀ a ∈ es, a.name = v → ∀ b ∈ es, v ∉ b.namespaces

/-- An expanded list of rules, whose names are kept apart, of an accepted list. -/
structure Expansion [ComDatabase] (rules es : List Rule) : Prop where
  accepts : RuleSet.Accepts rules
  expanded : expandAndExtract rules = .ok es
  names : NamesApart es

/-- The same with less asked of the names: no value a rule looks at is both the name of a rule and
    a namespace prefix. The order of the rules does not need more. -/
structure Untangled [ComDatabase] (rules es : List Rule) : Prop where
  accepts : RuleSet.Accepts rules
  expanded : expandAndExtract rules = .ok es
  nodup : (es.map (·.name)).Nodup
  apart : ∀ e ∈ es, ∀ v ∈ e.body.observed, (∃ a ∈ es, a.name = v) → ∀ b ∈ es, v ∉ b.prefixes

theorem Expansion.untangled [ComDatabase] {rules es : List Rule} (h : Expansion rules es) :
    Untangled rules es :=
  ⟨h.accepts, h.expanded, h.names.nodup, fun e he v hv ⟨a, ha, hname⟩ b hb hvb =>
    h.names.apart e he v hv a ha hname b hb (Rule.mem_prefixes.mp hvb).1⟩

/-- The dependencies between the rules of a list. -/
abbrev edges (es : List Rule) : String → List String :=
  successorsOf (indexByName es) (indexRulesByNamespace es)

section

variable [ComDatabase] {rules es : List Rule}

/-- The namespaces of the expanded list are those of the given one. -/
theorem expandAndExtract_prefixes (hes : expandAndExtract rules = .ok es) {v name : String} :
    (∃ e ∈ es, v ∈ e.prefixes ∧ e.name = name) ↔ ∃ r ∈ rules, v ∈ r.prefixes ∧ r.name = name := by
  obtain ⟨hmem, htreated⟩ := expandAndExtract_spec hes
  have hkeep : ∀ {r e : Rule}, FinishesAs r e → e.prefixes = r.prefixes := fun hf => by
    rw [Rule.prefixes, Rule.prefixes, hf.keeps.namespace_]
  constructor
  · intro h
    obtain ⟨e, he, hv, hname⟩ := h
    obtain ⟨r, hr, hf⟩ := (hmem e).mp he
    rw [hkeep hf] at hv
    refine ⟨r, hr.mem_of_namespace fun hn => ?_, hv, hf.keeps.name ▸ hname⟩
    rw [Rule.prefixes, hn] at hv
    exact List.not_mem_nil hv
  · intro h
    obtain ⟨r, hr, hv, hname⟩ := h
    obtain ⟨r', syn, hext⟩ := htreated r (.given hr)
    have hf : FinishesAs r (r'.setBody (optimizeNode r'.body)) := ⟨r', syn, hext, rfl⟩
    exact ⟨_, (hmem _).mpr ⟨r, .given hr, hf⟩, by rwa [hkeep hf], hf.keeps.name.trans hname⟩

/-- Every rule that descends from a given one is finished as a rule of the list. -/
theorem finished_of_descends (hes : expandAndExtract rules = .ok es) {r : Rule}
    (hr : Descends rules r) : ∃ e ∈ es, FinishesAs r e := by
  obtain ⟨hmem, htreated⟩ := expandAndExtract_spec hes
  obtain ⟨r', syn, hext⟩ := htreated r hr
  have hfin : FinishesAs r (r'.setBody (optimizeNode r'.body)) := ⟨r', syn, hext, rfl⟩
  exact ⟨_, (hmem _).mpr ⟨r, hr, hfin⟩, hfin⟩

/-- A value refers to the same rules in both lists. -/
theorem referents_expanded_iff (hes : expandAndExtract rules = .ok es) {v d : String} :
    d ∈ referents (indexRulesByNamespace es) v ↔ d ∈ referents (indexRulesByNamespace rules) v := by
  have hnone : (∀ e ∈ es, v ∉ e.prefixes) ↔ ∀ r ∈ rules, v ∉ r.prefixes := by
    constructor
    · intro hall r hr hv
      obtain ⟨e, he, hv, _⟩ := (expandAndExtract_prefixes hes).mpr ⟨r, hr, hv, rfl⟩
      exact hall e he hv
    · intro hall e he hv
      obtain ⟨r, hr, hv, _⟩ := (expandAndExtract_prefixes hes).mp ⟨e, he, hv, rfl⟩
      exact hall r hr hv
  rw [mem_referents, mem_referents, (expandAndExtract_prefixes hes), hnone]

/-- What a finished rule refers to by a value that is no rule name and namespace prefix at once:
    a given rule its given rule depends on, or a rule extracted from it. -/
theorem referent_cases (hes : expandAndExtract rules = .ok es) {g r e : Rule} (hg : g ∈ rules)
    (hd : Descends [g] r) (hf : FinishesAs r e) {v d : String} (hv : v ∈ e.body.observed)
    (hapart : (∃ a ∈ es, a.name = v) → ∀ b ∈ es, v ∉ b.prefixes)
    (hdv : d ∈ referents (indexRulesByNamespace es) v) :
    (d ∈ getDependencies g.body (indexRulesByNamespace rules)) ∨
      ∃ r' syn, extractRule r = .ok (r', syn) ∧ ∃ s ∈ syn, s.name = d := by
  rcases hf.observed hv with hvr | ⟨r', syn, hext, s, hs, rfl⟩
  · exact Or.inl (mem_getDependencies.mpr
      ⟨v, hd.observed hvr, (referents_expanded_iff hes).mp hdv⟩)
  · obtain ⟨es', hes', hfs⟩ := finished_of_descends hes ((hd.of_origin hg).synthetic hext hs)
    rcases mem_referents.mp hdv with ⟨b, hb, hvb, _⟩ | ⟨rfl, _⟩
    · exact absurd hvb (hapart ⟨es', hes', hfs.keeps.name⟩ b hb)
    · exact Or.inr ⟨r', syn, hext, s, hs, rfl⟩

/-- Where a name stands: the position of the given rule it comes from, and how many subscopes
    its rule still has. -/
def Stands (rules es : List Rule) (order : List String) (name : String) (at_ : Nat × Nat) : Prop :=
  ∃ g ∈ rules, ∃ r, Descends [g] r ∧ ∃ e ∈ es, FinishesAs r e ∧ e.name = name ∧
    at_ = (order.idxOf g.name, r.turns)

/-- What a rule refers to stands lower. -/
theorem stands_referent (ha : RuleSet.Accepts rules) (hes : expandAndExtract rules = .ok es)
    {order : List String}
    (horder : ∀ r ∈ rules, ∀ d ∈ getDependencies r.body (indexRulesByNamespace rules),
      order.idxOf d < order.idxOf r.name) {g r e : Rule} (hg : g ∈ rules) (hdesc : Descends [g] r)
    (hf : FinishesAs r e) {v d : String} (hv : v ∈ e.body.observed)
    (hapart : (∃ a ∈ es, a.name = v) → ∀ b ∈ es, v ∉ b.prefixes)
    (hdv : d ∈ referents (indexRulesByNamespace es) v) :
    ∃ at', Stands rules es order d at' ∧
      Prod.Lex (· < ·) (· < ·) at' (order.idxOf g.name, r.turns) := by
  rcases referent_cases hes hg hdesc hf hv hapart hdv with hdep | ⟨r', syn, hext, s, hs, rfl⟩
  · obtain ⟨b, hb, rfl⟩ := ha.met g hg d hdep
    obtain ⟨eb, heb, hfb⟩ := finished_of_descends hes (.given hb)
    refine ⟨_, ⟨b, hb, b, .given List.mem_cons_self, eb, heb, hfb, hfb.keeps.name, rfl⟩, ?_⟩
    exact .left _ _ (horder g hg b.name hdep)
  · have hds : Descends [g] s := hdesc.synthetic hext hs
    obtain ⟨eb, heb, hfb⟩ := finished_of_descends hes (hds.of_origin hg)
    refine ⟨_, ⟨g, hg, s, hds, eb, heb, hfb, hfb.keeps.name, rfl⟩, ?_⟩
    exact .right _ (extractRule_synthetic hext hs).2.1

namespace Untangled

theorem mem_iff (h : Untangled rules es) {e : Rule} :
    e ∈ es ↔ ∃ r, Descends rules r ∧ FinishesAs r e := (expandAndExtract_spec h.expanded).1 e

/-- Every rule that descends from a given one is finished as a rule of the list. -/
theorem finished (h : Untangled rules es) {r : Rule} (hr : Descends rules r) :
    ∃ e ∈ es, FinishesAs r e := finished_of_descends h.expanded hr

theorem unique (h : Untangled rules es) {a b : Rule} (ha : a ∈ es) (hb : b ∈ es)
    (he : a.name = b.name) : a = b :=
  List.inj_on_of_nodup_map h.nodup ha hb he

/-- The rule of a name is what the index finds. -/
theorem index (h : Untangled rules es) {e : Rule} (he : e ∈ es) :
    (indexByName es).get? e.name = some e := indexByName_of_nodup h.nodup he

theorem mem_edges (h : Untangled rules es) {e : Rule} (he : e ∈ es) {d : String} :
    d ∈ edges es e.name ↔
      ∃ v ∈ e.body.observed, d ∈ referents (indexRulesByNamespace es) v := by
  rw [edges, successorsOf, dependenciesOf, h.index he]
  exact mem_getDependencies

/-! ## No cycles -/

theorem exists_stands (h : Untangled rules es) (order : List String) {e : Rule} (he : e ∈ es) :
    ∃ at_, Stands rules es order e.name at_ := by
  obtain ⟨r, hr, hf⟩ := h.mem_iff.mp he
  obtain ⟨g, hg, hd⟩ := hr.origin
  exact ⟨_, g, hg, r, hd, e, he, hf, rfl, rfl⟩

/-- A dependency of a finished rule is the name of a given rule its given rule depends on, or of
    a rule extracted from it. -/
theorem edge_cases (h : Untangled rules es) {g r e : Rule} (hg : g ∈ rules) (hd : Descends [g] r)
    (hf : FinishesAs r e) {d : String} (hdep : d ∈ edges es e.name) :
    (d ∈ getDependencies g.body (indexRulesByNamespace rules)) ∨
      ∃ r' syn, extractRule r = .ok (r', syn) ∧ ∃ s ∈ syn, s.name = d := by
  have he : e ∈ es := h.mem_iff.mpr ⟨r, hd.of_origin hg, hf⟩
  obtain ⟨v, hv, hdv⟩ := (h.mem_edges he).mp hdep
  exact referent_cases h.expanded hg hd hf hv (h.apart e he v hv) hdv

/-- Along a dependency a name moves down. -/
theorem stands_edge (h : Untangled rules es) {order : List String}
    (horder : ∀ r ∈ rules, ∀ d ∈ getDependencies r.body (indexRulesByNamespace rules),
      order.idxOf d < order.idxOf r.name)
    {name d : String} {at_ : Nat × Nat} (hs : Stands rules es order name at_)
    (hd : d ∈ edges es name) :
    ∃ at', Stands rules es order d at' ∧ Prod.Lex (· < ·) (· < ·) at' at_ := by
  obtain ⟨g, hg, r, hdesc, e, he, hf, rfl, rfl⟩ := hs
  obtain ⟨v, hv, hdv⟩ := (h.mem_edges he).mp hd
  exact stands_referent h.accepts h.expanded horder hg hdesc hf hv (h.apart e he v hv) hdv

/-- The dependencies of an expanded list have no cycle. -/
theorem edges_acyclic (h : Untangled rules es) (name : String) :
    ¬ Relation.TransGen (fun a b => b ∈ edges es a) name name := by
  obtain ⟨order, _, horder⟩ := h.accepts.ordered
  have hpath : ∀ {a b}, Relation.TransGen (fun a b => b ∈ edges es a) a b → ∀ at_,
      Stands rules es order a at_ →
        ∃ at', Stands rules es order b at' ∧ Prod.Lex (· < ·) (· < ·) at' at_ := by
    intro a b hab
    induction hab with
    | single hd => exact fun at_ hs => h.stands_edge horder hs hd
    | tail _ hd ih =>
      intro at_ hs
      obtain ⟨at1, hs1, hlt1⟩ := ih at_ hs
      obtain ⟨at2, hs2, hlt2⟩ := h.stands_edge horder hs1 hd
      exact ⟨at2, hs2, Trans.trans hlt2 hlt1⟩
  intro hcycle
  have hwf : WellFounded (Prod.Lex (α := Nat) (β := Nat) (· < ·) (· < ·)) :=
    WellFounded.prod_lex Nat.lt_wfRel.wf Nat.lt_wfRel.wf
  have hnone : ∀ at_, ¬ Stands rules es order name at_ := fun at_ => by
    induction at_ using hwf.induction with
    | _ at_ ih =>
      intro hs
      obtain ⟨at', hs', hlt⟩ := hpath hcycle at_ hs
      exact ih at' hlt hs'
  obtain ⟨b, hb, _⟩ := Relation.TransGen.head'_iff.mp hcycle
  cases hget : (indexByName es).get? name with
  | none =>
    have hnil : edges es name = [] := by
      rw [edges, successorsOf, dependenciesOf, hget]
      rfl
    rw [hnil] at hb
    exact List.not_mem_nil hb
  | some e =>
    obtain ⟨he, rfl⟩ := indexByName_some hget
    obtain ⟨at_, hs⟩ := h.exists_stands order he
    exact hnone at_ hs

/-! ## The rules of a scope -/

omit [ComDatabase] in
theorem edges_of_not_key {a : String} (ha : a ∉ (indexByName es).keys) : edges es a = [] := by
  have hget : (indexByName es).get? a = none := by
    rw [← Option.not_isSome_iff_eq_none, ← IndexMap.containsKey_eq_isSome,
      IndexMap.containsKey_iff]
    exact fun ⟨k, hk, he⟩ => ha (eq_of_beq he ▸ hk)
  rw [edges, successorsOf, dependenciesOf, hget]
  rfl

omit [ComDatabase] in
/-- The names of a scope rule list are the rules that are no subscope rules and everything they
    depend on. -/
theorem scopeRuleNames_spec (es : List Rule) :
    (∀ e ∈ es, e.isSubscopeRule = false →
      e.name ∈ scopeRuleNames es (indexByName es) (indexRulesByNamespace es)) ∧
    (∀ x ∈ scopeRuleNames es (indexByName es) (indexRulesByNamespace es), ∀ y ∈ edges es x,
      y ∈ scopeRuleNames es (indexByName es) (indexRulesByNamespace es)) ∧
    ∀ x ∈ scopeRuleNames es (indexByName es) (indexRulesByNamespace es),
      ∃ e ∈ es, e.isSubscopeRule = false ∧ Reaches (edges es) e.name x := by
  have heq : scopeRuleNames es (indexByName es) (indexRulesByNamespace es) =
      ((es.filter fun e => !e.isSubscopeRule).map (·.name)).foldl
        (fun out a => closure (edges es) ((indexByName es).len + 1) a out) ∅ := by
    rw [List.foldl_map, List.foldl_filter]
    unfold scopeRuleNames
    refine congrArg (fun f => List.foldl f ∅ es) ?_
    funext out e
    cases e.isSubscopeRule <;> rfl
  have hlen : (indexByName es).keys.length < (indexByName es).len + 1 :=
    Nat.lt_succ_of_le (IndexMap.len_eq _).ge
  obtain ⟨hstarts, hclosed, hreached⟩ := closureAll_spec (fun a ha => edges_of_not_key ha) hlen
  rw [heq]
  refine ⟨fun e he hsub => hstarts e.name ?_, hclosed, fun x hx => ?_⟩
  · exact List.mem_map_of_mem (List.mem_filter.mpr ⟨he, by rw [hsub]; rfl⟩)
  · obtain ⟨a, ha, hr⟩ := hreached x hx
    obtain ⟨e, he, rfl⟩ := List.mem_map.mp ha
    obtain ⟨he, hsub⟩ := List.mem_filter.mp he
    exact ⟨e, he, by simpa using hsub, hr⟩

/-- The order the names of every scope are taken from. -/
theorem topoSortSubset_spec (h : Untangled rules es) (names : OrdSet String) :
    DepsFirst (edges es) (topoSortSubset names (indexByName es) (indexRulesByNamespace es)) ∧
      (topoSortSubset names (indexByName es) (indexRulesByNamespace es)).Nodup ∧
      ∀ a ∈ names, a ∈ topoSortSubset names (indexByName es) (indexRulesByNamespace es) := by
  let rank : String → String → Prop := fun b a =>
    Relation.TransGen (fun a b => b ∈ edges es a) a b
  have htrans : IsTrans String rank := ⟨fun _ _ _ hab hbc => hbc.trans hab⟩
  have hirrefl : Std.Irrefl rank := ⟨h.edges_acyclic⟩
  have hrank : ∀ a, ∀ b ∈ edges es a, rank b a := fun a b hb => .single hb
  have hlen : (indexByName es).keys.length < (indexByName es).len + 1 :=
    Nat.lt_succ_of_le (IndexMap.len_eq _).ge
  exact postorderAll_spec hrank (fun a ha => edges_of_not_key ha) hlen

omit [ComDatabase] in
/-- The rules of a scope and their names stand in one order. -/
theorem map_name_rulesForScope (es : List Rule) {scope : Scope} (hscope : scope ∈ allScopes) :
    ((MatchingRuleSet.ofExpanded es).rulesForScope scope).map (·.name) =
      rulesForScope es (indexByName es) (indexRulesByNamespace es) scope := by
  have hget : ∀ name ∈ rulesForScope es (indexByName es) (indexRulesByNamespace es) scope,
      ((indexByName es).get? name).map (·.name) = some name := by
    intro name hname
    obtain ⟨_, hany⟩ := List.mem_filter.mp hname
    cases hrule : (indexByName es).get? name with
    | none => rw [hrule] at hany; cases hany
    | some r => exact congrArg some (indexByName_some hrule).2
  unfold MatchingRuleSet.rulesForScope
  rw [MatchingRuleSet.rulesByScope_ofExpanded, if_pos hscope, Option.getD_some, List.map_filterMap]
  exact (List.filterMap_congr hget).trans List.filterMap_some

theorem rulesForScope_nodup (h : Untangled rules es) (scope : Scope) :
    (((MatchingRuleSet.ofExpanded es).rulesForScope scope).map (·.name)).Nodup := by
  by_cases hscope : scope ∈ allScopes
  · rw [map_name_rulesForScope es hscope]
    exact (h.topoSortSubset_spec _).2.1.filter _
  · have hnone : (MatchingRuleSet.ofExpanded es).rulesForScope scope = [] :=
      List.eq_nil_iff_forall_not_mem.mpr fun r hr =>
        hscope (MatchingRuleSet.mem_rulesForScope_ofExpanded hr).2.2
    rw [hnone]
    exact List.nodup_nil

/-- A rule whose name is listed is a rule of each of its scopes. -/
theorem mem_rulesForScope (h : Untangled rules es) {e : Rule} (he : e ∈ es)
    (hname : e.name ∈ scopeRuleNames es (indexByName es) (indexRulesByNamespace es))
    {scope : Scope} (hscope : scope ∈ allScopes) (hs : e.scopes.contains scope = true) :
    e ∈ (MatchingRuleSet.ofExpanded es).rulesForScope scope := by
  unfold MatchingRuleSet.rulesForScope
  rw [MatchingRuleSet.rulesByScope_ofExpanded, if_pos hscope]
  refine List.mem_filterMap.mpr ⟨e.name, List.mem_filter.mpr ⟨?_, ?_⟩, h.index he⟩
  · exact (h.topoSortSubset_spec _).2.2 e.name hname
  · rw [h.index he]
    exact hs

/-- The rules extracted from a rule that is no subscope rule are listed. -/
theorem listed_of_origin (h : Untangled rules es) {g r e : Rule} (hg : g ∈ rules)
    (hsub : g.isSubscopeRule = false) (hd : Descends [g] r) (hf : FinishesAs r e) :
    e.name ∈ scopeRuleNames es (indexByName es) (indexRulesByNamespace es) := by
  obtain ⟨hstarts, hclosed, _⟩ := scopeRuleNames_spec es
  induction hd generalizing e with
  | given hr =>
    obtain rfl := List.mem_singleton.mp hr
    have he : e ∈ es := h.mem_iff.mpr ⟨_, .given hg, hf⟩
    exact hstarts e he (hf.keeps.isSubscopeRule.trans hsub)
  | synthetic hr hext hs ih =>
    obtain ⟨p, hp, hfp⟩ := h.finished (hr.of_origin hg)
    have he : e ∈ es := h.mem_iff.mpr ⟨_, (hr.of_origin hg).synthetic hext hs, hf⟩
    have hobs := hfp.observes_synthetic hext hs
    rw [← hf.keeps.name] at hobs
    refine hclosed p.name (ih hfp) e.name ((h.mem_edges hp).mpr ⟨e.name, hobs, ?_⟩)
    exact mem_referents.mpr (Or.inr ⟨rfl, h.apart p hp e.name hobs ⟨e, he, rfl⟩⟩)

end Untangled

namespace Expansion

/-- A rule that publishes what another looks at is a dependency of it. -/
theorem publisher_edge (h : Expansion rules es) {e a : Rule} (he : e ∈ es) (ha : a ∈ es)
    {v : String} (hv : v ∈ e.body.observed) (hp : v ∈ a.published) : a.name ∈ edges es e.name := by
  refine (h.untangled.mem_edges he).mpr ⟨v, hv, mem_referents.mpr ?_⟩
  rcases List.mem_cons.mp hp with hname | hns
  · refine Or.inr ⟨hname.symm, fun b hb hvb => ?_⟩
    exact h.names.apart e he v hv a ha hname.symm b hb (Rule.mem_prefixes.mp hvb).1
  · by_cases hempty : v = ""
    · -- nothing is filed under the empty namespace, so a rule has this name
      have hnot : ∀ b ∈ es, v ∉ b.prefixes := fun b _ hvb => (Rule.mem_prefixes.mp hvb).2 hempty
      have hdep : v ∈ edges es e.name :=
        (h.untangled.mem_edges he).mpr ⟨v, hv, mem_referents.mpr (Or.inr ⟨rfl, hnot⟩)⟩
      obtain ⟨r, hr, hf⟩ := h.untangled.mem_iff.mp he
      obtain ⟨g, hg, hd⟩ := hr.origin
      have hrule : ∃ b ∈ es, b.name = v := by
        rcases h.untangled.edge_cases hg hd hf hdep with hdep | ⟨r', syn, hext, s, hs, hname⟩
        · obtain ⟨b, hb, hname⟩ := h.accepts.met g hg v hdep
          obtain ⟨eb, heb, hfb⟩ := h.untangled.finished (.given hb)
          exact ⟨eb, heb, hfb.keeps.name.trans hname⟩
        · obtain ⟨eb, heb, hfb⟩ := h.untangled.finished ((hd.of_origin hg).synthetic hext hs)
          exact ⟨eb, heb, hfb.keeps.name.trans hname⟩
      obtain ⟨b, hb, hname⟩ := hrule
      exact absurd hns (h.names.apart e he v hv b hb hname a ha)
    · exact Or.inl ⟨a, ha, Rule.mem_prefixes.mpr ⟨hns, hempty⟩, rfl⟩

/-- A rule of a scope stands after the rules of the scope that publish what it looks at. -/
theorem publishers_first (h : Expansion rules es) {scope : Scope} {pre post : List Rule} {e : Rule}
    (hL : (MatchingRuleSet.ofExpanded es).rulesForScope scope = pre ++ e :: post) {a : Rule}
    (ha : a ∈ (MatchingRuleSet.ofExpanded es).rulesForScope scope) {v : String}
    (hv : v ∈ e.body.observed) (hp : v ∈ a.published) : a ∈ pre := by
  have hmem : e ∈ (MatchingRuleSet.ofExpanded es).rulesForScope scope := by
    rw [hL]
    exact List.mem_append_right _ List.mem_cons_self
  obtain ⟨he, _, hscope⟩ := MatchingRuleSet.mem_rulesForScope_ofExpanded hmem
  obtain ⟨hae, hacontains, _⟩ := MatchingRuleSet.mem_rulesForScope_ofExpanded ha
  have hedge : a.name ∈ edges es e.name := h.publisher_edge he hae hv hp
  have hnames := Untangled.map_name_rulesForScope es hscope
  rw [hL, List.map_append, List.map_cons] at hnames
  have hlisted : ((indexByName es).get? a.name).any (fun r => r.scopes.contains scope) = true := by
    rw [h.untangled.index hae]
    exact hacontains
  obtain ⟨b, hb, hname⟩ := List.mem_map.mp
    ((h.untangled.topoSortSubset_spec _).1.filter hnames.symm hedge hlisted)
  have hbe : b ∈ es := by
    have hbL : b ∈ (MatchingRuleSet.ofExpanded es).rulesForScope scope := by
      rw [hL]
      exact List.mem_append_left _ hb
    exact (MatchingRuleSet.mem_rulesForScope_ofExpanded hbL).1
  exact h.untangled.unique hbe hae hname ▸ hb

end Expansion

/-! ## What the matcher returns -/

section

variable [RegexBackend] {scope : Scope} {fs fs' : FeatureSet} {addr : Address}
  {results : MatchResults}

/-- What `matchScope` returns when the names are kept apart, said of the features it returns:
    which rules it records, with what evidence, and which match features it has published. -/
structure Settled (listed : List Rule) (fs : FeatureSet) (addr : Address) (fs' : FeatureSet)
    (results : MatchResults) : Prop where
  decided : ∀ r ∈ listed,
    (evaluateBoolean fs' r.body = .ok false ∧ results.get? r.name = none) ∨
      (evaluateBoolean fs' r.body = .ok true ∧
        ∃ full, evaluate fs' false r.body = .ok full ∧ results.get? r.name = some [(addr, full)])
  recorded : ∀ name, results.get? name ≠ none → ∃ r ∈ listed, r.name = name
  published : ∀ v, fs'.get? (.matchedRule v) =
    if ∃ r ∈ listed, (results.get? r.name).isSome = true ∧ v ∈ r.published then
      some ((fs.get? (.matchedRule v)).getD ∅ ∪ .singleton addr)
    else fs.get? (.matchedRule v)
  frame : fs.Agree fs' fun _ => False

theorem Expansion.settled (h : Expansion rules es)
    (hrun : (MatchingRuleSet.ofExpanded es).matchScope scope fs addr = .ok (fs', results)) :
    Settled ((MatchingRuleSet.ofExpanded es).rulesForScope scope) fs addr fs' results := by
  rw [MatchingRuleSet.matchScope_ofExpanded h.expanded] at hrun
  have hn := h.untangled.rulesForScope_nodup scope
  refine ⟨fun r hr => ?_, fun name hname => matchRules_recorded hrun rfl hname,
    fun v => matchRules_published hn hrun (fun _ _ => rfl) v, ?_, (matchRules_scanned hrun).symm⟩
  · obtain ⟨pre, post, fs1, res1, hL, hpre, hagree, hcases⟩ := matchRules_at hn hrun hr rfl
    have hagree : fs1.Agree fs' (· ∈ r.body.observed) := by
      refine hagree _ fun a ha v hv hobs => ?_
      have haL : a ∈ (MatchingRuleSet.ofExpanded es).rulesForScope scope := by
        rw [hL]
        exact List.mem_append_right _ ha
      have hapre : a ∈ pre := h.publishers_first hL haL hobs hv
      rw [hL, List.map_append] at hn
      exact (List.nodup_append.mp hn).2.2 a.name (List.mem_map_of_mem hapre) a.name
        (List.mem_map_of_mem ha) rfl
    rcases ready_of_expandAndExtract h.expanded r
      (MatchingRuleSet.mem_rulesForScope_ofExpanded hr).1 with heval | hsub
    · rwa [← evaluateBoolean_congr heval hagree, ← evaluate_congr hagree]
    · obtain ⟨s, b, d, hbody⟩ := exists_subscope hsub
      rw [hbody, evaluateBoolean] at hcases
      rcases hcases with ⟨hb, _⟩ | ⟨hb, _⟩ <;> cases hb
  · exact fun f hf => (matchRules_get?_of_not hrun fun r _ v _ he => hf v he).symm

/-- With the names kept apart, the rules `matchScope` records are those of the scope whose body
    holds on the features it returns. -/
theorem matchScope_stable {set : MatchingRuleSet} (h : MatchingRuleSet.new rules = .ok set)
    (hnames : ∀ es, expandAndExtract rules = .ok es → NamesApart es)
    (hrun : set.matchScope scope fs addr = .ok (fs', results)) :
    ∀ r ∈ set.rulesForScope scope,
      results.containsKey r.name = true ↔ evaluateBoolean fs' r.body = .ok true := by
  obtain ⟨haccepts, es, hes, rfl⟩ := MatchingRuleSet.new_ok h
  have hsettled := (Expansion.mk haccepts hes (hnames es hes)).settled hrun
  intro r hr
  rw [IndexMap.containsKey_eq_isSome]
  rcases hsettled.decided r hr with ⟨hb, hres⟩ | ⟨hb, full, _, hres⟩
  · rw [hb, hres]
    exact ⟨fun h => (nomatch h), fun h => (nomatch h)⟩
  · rw [hb, hres]
    exact ⟨fun _ => rfl, fun _ => rfl⟩

end

end

theorem openAndCreate_namesApart (es : List Rule)
    (h : @expandAndExtract .empty openAndCreate = .ok es) : NamesApart es := by
  obtain rfl := Except.ok.inj h
  exact ⟨by decide, by decide⟩

theorem matchScope_stable_openAndCreate :
    ∃ set fs' results, @MatchingRuleSet.new .empty openAndCreate = .ok set ∧
      @MatchingRuleSet.matchScope .empty set .function
        (IndexMap.ofList [(.api "CreateFile", .singleton .noAddress)]) .noAddress =
          .ok (fs', results) ∧
      ∀ r ∈ set.rulesForScope .function, results.containsKey r.name = true ↔
        @evaluateBoolean .empty fs' r.body = .ok true := by
  refine ⟨_, _, _, rfl, rfl, ?_⟩
  exact @matchScope_stable .empty openAndCreate .empty .function
    (IndexMap.ofList [(.api "CreateFile", .singleton .noAddress)]) _ .noAddress _ _ rfl
    openAndCreate_namesApart rfl

/-- The namespace `n` of `B` is the name of a rule. -/
def namesakes : List Rule :=
  [.minimal "A" none ⟨some .function, none⟩ ⟨.leaf (.matchedRule "n"), none⟩,
    .minimal "B" (some "n") ⟨some .function, none⟩ ⟨.leaf (.api "CreateFile"), none⟩,
    .minimal "n" none ⟨some .function, none⟩ ⟨.leaf (.api "WriteFile"), none⟩]

/-- `a/1` is the name of a given rule and of the subscope extracted from `a`. -/
def shadowed : List Rule :=
  [.minimal "a" none ⟨some .file, none⟩
      ⟨.and [⟨.subscope .function ⟨.leaf (.matchedRule "c"), none⟩, none⟩], none⟩,
    .minimal "a/1" none ⟨some .function, none⟩ ⟨.leaf (.api "CreateFile"), none⟩,
    .minimal "c" none ⟨some .function, none⟩ ⟨.not ⟨.leaf (.matchedRule "a/1"), none⟩, none⟩]

/-- Where names are shared, what is recorded is not stable: `A` asks for the namespace `n` and is
    decided before the rule `n`, and `c` is decided before the extracted `a/1`. -/
theorem namesakes_unstable :
    (∃ set fs' results, @MatchingRuleSet.new .empty namesakes = .ok set ∧
      @MatchingRuleSet.matchScope .empty set .function
        (IndexMap.ofList [(.api "WriteFile", .singleton .noAddress)]) .noAddress =
          .ok (fs', results) ∧
      ∃ r ∈ set.rulesForScope .function, ¬ (results.containsKey r.name = true ↔
        @evaluateBoolean .empty fs' r.body = .ok true)) ∧
    ∃ set fs' results, @MatchingRuleSet.new .empty shadowed = .ok set ∧
      @MatchingRuleSet.matchScope .empty set .function ∅ .noAddress = .ok (fs', results) ∧
      ∃ r ∈ set.rulesForScope .function, ¬ (results.containsKey r.name = true ↔
        @evaluateBoolean .empty fs' r.body = .ok true) := by
  refine ⟨⟨_, _, _, rfl, rfl, _, List.mem_cons_of_mem _ List.mem_cons_self, fun h => ?_⟩,
    _, _, _, rfl, rfl, _, List.mem_cons_self, fun h => ?_⟩
  · exact Bool.false_ne_true (h.mpr rfl)
  · have hheld := h.mp rfl
    cases hheld

end CapaX
