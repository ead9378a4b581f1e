import CapaX.Capabilities.Order

/-
  When matching fails. A run of the matcher fails at a rule whose body still has a subscope at
  its root, and at no other (`matchScope_never_fails_iff`). No such rule is left when no
  subscope is the whole body of a rule or of another subscope (`not_subscope_of_stackFree`), and
  when the names are kept apart every nesting of that kind leaves one
  (`stackFree_of_never_fails`).
-/

namespace CapaX

open Collections Node

section

variable [ComDatabase] {rules es : List Rule}

/-- A rule that descends from rules without stacked subscopes has none. -/
theorem Descends.stackFree (h : ∀ r ∈ rules, r.body.stmt.isSubscope = false ∧ r.body.StackFree)
    {r : Rule} (hr : Descends rules r) : r.body.stmt.isSubscope = false ∧ r.body.StackFree := by
  induction hr with
  | given hr => exact h _ hr
  | synthetic _ hext hs ih =>
    obtain ⟨body, hturn⟩ := extractRule_ok hext
    have hexp := expandComNode_ok hturn.expanded
    have hfree : body.inner.StackFree := (hexp.stackFree.mpr ih.2).inner
    rw [hturn.synthetic_eq] at hs
    obtain ⟨e, he, rfl⟩ := List.mem_map.mp hs
    have htop : (e.2.1, e.2.2) ∈ body.inner.topSubscopes := by
      rw [← map_named _ 0 body.inner.topSubscopes]
      exact List.mem_map_of_mem he
    obtain ⟨hstacked, hbody⟩ := Everywhere.topSubscopes hfree htop
    exact ⟨hstacked, hbody⟩

/-- Without stacked subscopes no body of the expanded list has a subscope at its root. -/
theorem not_subscope_of_stackFree (hes : expandAndExtract rules = .ok es)
    (h : ∀ r ∈ rules, r.body.stmt.isSubscope = false ∧ r.body.StackFree) :
    ∀ e ∈ es, e.body.stmt.isSubscope = false := by
  intro e he
  obtain ⟨r, hr, hf⟩ := ((expandAndExtract_spec hes).1 e).mp he
  have hroot := (hr.stackFree h).1
  obtain ⟨r', syn, hext, rfl⟩ := hf
  obtain ⟨body, hturn⟩ := extractRule_ok hext
  have hexp := expandComNode_ok hturn.expanded
  have hfin : FinishesAs r (r'.setBody (optimizeNode r'.body)) := ⟨r', syn, hext, rfl⟩
  rcases hfin.body with ⟨hsub, _⟩ | ⟨_, heval⟩
  · rw [hroot] at hsub
    cases hsub
  · refine Bool.eq_false_iff.mpr fun hsub => ?_
    obtain ⟨s, b, d, hbody⟩ := exists_subscope hsub
    exact not_evaluable_subscope (hbody ▸ heval)

variable [RegexBackend]

omit [ComDatabase] in
/-- A run over rules the engine can evaluate does not fail. -/
theorem matchRules_ok {addr : Address} {acc : FeatureSet × MatchResults} {rules : List Rule}
    (h : ∀ r ∈ rules, r.body.Evaluable) : ∃ out, rules.foldlM (matchRule addr) acc = .ok out := by
  have hfold := Control.foldlM_ok (f := matchRule addr) (P := fun _ => True) (b := acc) (l := rules)
    trivial fun r hr b _ => by
      obtain ⟨full, hfull, _⟩ := evaluate_full (h r hr)
      rw [matchRule, evaluateBoolean_eq (h r hr)]
      cases r.body.reads b.1.reading with
      | false => exact ⟨b, rfl, trivial⟩
      | true => exact ⟨_, by rw [hfull]; rfl, trivial⟩
  obtain ⟨out, hout, _⟩ := hfold
  exact ⟨out, hout⟩

end

/-! ## Stacked subscopes -/

/-- A node whose outermost subscopes neither begin with a subscope nor have stacked ones has no
    stacked ones. -/
theorem stackFree_of_topSubscopes {n : Node}
    (h : ∀ e ∈ n.topSubscopes, e.2.stmt.isSubscope = false ∧ e.2.StackFree) : n.StackFree := by
  have hlist : ∀ cs : List Node,
      (∀ c ∈ cs, (∀ e ∈ c.topSubscopes, e.2.stmt.isSubscope = false ∧ e.2.StackFree) →
        c.StackFree) →
      (∀ e ∈ topSubscopesAll cs, e.2.stmt.isSubscope = false ∧ e.2.StackFree) →
      ∀ c ∈ cs, c.StackFree := fun cs ih h c hc =>
    ih c hc fun e he => h e (mem_topSubscopesAll.mpr ⟨c, hc, he⟩)
  induction n using Node.induct with
  | and cs d ih => exact everywhere_iff.mpr ⟨rfl, hlist cs ih h⟩
  | or cs d ih => exact everywhere_iff.mpr ⟨rfl, hlist cs ih h⟩
  | some k cs d ih => exact everywhere_iff.mpr ⟨rfl, hlist cs ih h⟩
  | not c d ih =>
    refine everywhere_iff.mpr ⟨rfl, fun c' hc' => ?_⟩
    obtain rfl := List.mem_singleton.mp hc'
    exact ih h
  | range f min max d => exact everywhere_iff.mpr ⟨rfl, fun c hc => absurd hc List.not_mem_nil⟩
  | leaf f d => exact everywhere_iff.mpr ⟨rfl, fun c hc => absurd hc List.not_mem_nil⟩
  | subscope s b d ih =>
    obtain ⟨hroot, hfree⟩ := h (s, b) (List.mem_singleton.mpr rfl)
    refine everywhere_iff.mpr ⟨hroot, fun c' hc' => ?_⟩
    obtain rfl := List.mem_singleton.mp hc'
    exact hfree

section

variable [ComDatabase] {rules es : List Rule}

/-- A rule with stacked subscopes leaves an extracted rule that begins with a subscope. -/
theorem Expansion.exists_subscope_of_stacked (h : Expansion rules es) {g : Rule} (hg : g ∈ rules)
    {r : Rule} (hd : Descends [g] r) (hroot : r.body.stmt.isSubscope = false)
    {q : Scope → Prop} (hq : r.body.ScopesIn q) (hstacked : ¬ r.body.StackFree) :
    ∃ s, Descends [g] s ∧ (∃ scope, s.scopes = .ofSubscope scope ∧ q scope) ∧
      s.body.stmt.isSubscope = true := by
  induction hn : r.turns using Nat.strong_induction_on generalizing r with
  | _ n ih =>
    obtain ⟨r', syn, hext⟩ := (expandAndExtract_spec h.expanded).2 r (hd.of_origin hg)
    obtain ⟨body, hturn⟩ := extractRule_ok hext
    have hexp := expandComNode_ok hturn.expanded
    have hinner : body.inner = body := inner_of_not_subscope (hexp.root.trans hroot)
    have hsyn := hturn.synthetic_eq
    rw [hinner] at hsyn
    have htop : ∃ e ∈ body.topSubscopes, e.2.stmt.isSubscope = true ∨ ¬ e.2.StackFree := by
      by_contra hno
      refine hstacked (hexp.stackFree.mp (stackFree_of_topSubscopes fun e he => ?_))
      constructor
      · exact Bool.eq_false_iff.mpr fun hsub => hno ⟨e, he, Or.inl hsub⟩
      · by_contra hfree
        exact hno ⟨e, he, Or.inr hfree⟩
    obtain ⟨e, he, hcases⟩ := htop
    obtain ⟨x, hx, rfl⟩ := List.mem_map.mp ((map_named r.name 0 body.topSubscopes).symm ▸ he)
    have hs : syntheticOf r.name x ∈ syn := hsyn ▸ List.mem_map_of_mem hx
    have hds := hd.synthetic hext hs
    obtain ⟨hkind, hkinds⟩ := Everywhere.topSubscopes (hexp.kinds q hq) he
    by_cases hsub : x.2.2.stmt.isSubscope = true
    · exact ⟨_, hds, ⟨x.2.1, rfl, hkind x.2.1 rfl⟩, hsub⟩
    · have hlt := (extractRule_synthetic hext hs).2.1
      exact ih _ (hn ▸ hlt) hds (Bool.eq_false_iff.mpr hsub) hkinds (hcases.resolve_left hsub) rfl

variable [RegexBackend]

/-- With the names kept apart, in a list without subscope rules whose subscopes are of the kinds
    of `allScopes`, matching fails unless no subscope is the whole body of another. -/
theorem stackFree_of_never_fails (h : Expansion rules es)
    (hrules : ∀ r ∈ rules, r.isSubscopeRule = false ∧ r.body.stmt.isSubscope = false ∧
      r.body.ScopesIn (· ∈ allScopes))
    (hok : ∀ scope fs addr, ∃ out, (MatchingRuleSet.ofExpanded es).matchScope scope fs addr =
      .ok out) :
    ∀ r ∈ rules, r.body.StackFree := by
  intro g hg
  obtain ⟨hflag, hroot, hkinds⟩ := hrules g hg
  by_contra hstacked
  obtain ⟨s, hds, ⟨scope, hscopes, hscope⟩, hsub⟩ :=
    h.exists_subscope_of_stacked hg (.given List.mem_cons_self) hroot hkinds hstacked
  obtain ⟨e, he, hf⟩ := h.untangled.finished (hds.of_origin hg)
  have hcontains : e.scopes.contains scope = true := by
    rw [hf.keeps.scopes, hscopes]
    exact Scopes.contains_ofSubscope.mpr rfl
  have hlisted := h.untangled.mem_rulesForScope he (h.untangled.listed_of_origin hg hflag hds hf) hscope hcontains
  have hsube : e.body.stmt.isSubscope = true := by
    rcases hf.body with ⟨_, hsub⟩ | ⟨hnot, _⟩
    · exact hsub
    · rw [hsub] at hnot
      cases hnot
  obtain ⟨⟨fs', results⟩, hrun⟩ := hok scope ∅ .noAddress
  obtain ⟨sc, b, d, hbody⟩ := exists_subscope hsube
  rcases (h.settled hrun).decided e hlisted with ⟨hb, _⟩ | ⟨hb, _⟩
  · rw [hbody, evaluateBoolean] at hb
    cases hb
  · rw [hbody, evaluateBoolean] at hb
    cases hb

variable {set : MatchingRuleSet}

/-- Matching fails for no scope, features and address exactly when no rule listed for a scope
    still begins with a subscope. That is so when no subscope is the whole body of a rule or of
    another subscope, and with the names kept apart, in a list without subscope rules whose
    subscopes are of the kinds of `allScopes`, only then. -/
theorem matchScope_never_fails_iff (h : MatchingRuleSet.new rules = .ok set) :
    ((∀ scope fs addr, ∃ out, set.matchScope scope fs addr = .ok out) ↔
        ∀ scope, ∀ r ∈ set.rulesForScope scope, r.body.stmt.isSubscope = false) ∧
      ((∀ r ∈ rules, r.body.stmt.isSubscope = false ∧ r.body.StackFree) →
        ∀ scope, ∀ r ∈ set.rulesForScope scope, r.body.stmt.isSubscope = false) ∧
      ((∀ es, expandAndExtract rules = .ok es → NamesApart es) →
        (∀ r ∈ rules, r.isSubscopeRule = false ∧ r.body.stmt.isSubscope = false ∧
          r.body.ScopesIn (· ∈ allScopes)) →
        (∀ scope fs addr, ∃ out, set.matchScope scope fs addr = .ok out) →
        ∀ r ∈ rules, r.body.StackFree) := by
  obtain ⟨haccepts, es, hes, rfl⟩ := MatchingRuleSet.new_ok h
  have hmem : ∀ scope, ∀ r ∈ (MatchingRuleSet.ofExpanded es).rulesForScope scope, r ∈ es :=
    fun scope r hr => (MatchingRuleSet.mem_rulesForScope_ofExpanded hr).1
  refine ⟨⟨fun hall scope r hr => ?_, fun hall scope fs addr => ?_⟩,
    fun hfree scope r hr => not_subscope_of_stackFree hes hfree r (hmem scope r hr),
    fun hnames => stackFree_of_never_fails ⟨haccepts, hes, hnames es hes⟩⟩
  · refine Bool.eq_false_iff.mpr fun hsub => ?_
    obtain ⟨out, hout⟩ := hall scope ∅ .noAddress
    rw [MatchingRuleSet.matchScope_ofExpanded hes] at hout
    obtain ⟨pre, post, hL⟩ := List.append_of_mem hr
    rw [hL] at hout
    obtain ⟨acc1, acc2, _, hturn, _⟩ := matchRules_split hout
    obtain ⟨s, b, d, hbody⟩ := exists_subscope hsub
    rw [matchRule, hbody, evaluateBoolean] at hturn
    cases hturn
  · rw [MatchingRuleSet.matchScope_ofExpanded hes]
    refine matchRules_ok fun r hr => ?_
    refine (ready_of_expandAndExtract hes r (hmem scope r hr)).resolve_right fun hsub => ?_
    rw [hall scope r hr] at hsub
    cases hsub

end

theorem matchScope_never_fails_iff_openAndCreate :
    ∃ set, @MatchingRuleSet.new .empty openAndCreate = .ok set ∧
      ∀ scope fs addr, ∃ out, @MatchingRuleSet.matchScope .empty set scope fs addr = .ok out := by
  refine ⟨_, rfl, ?_⟩
  obtain ⟨hiff, hfree, _⟩ := @matchScope_never_fails_iff .empty openAndCreate .empty _ rfl
  exact hiff.mpr (hfree (by decide))

/-- `and: [function: [basic block: [api: CreateFile]]]` at file scope. -/
def stackedDocument : Yaml.Value :=
  ruleDocument "stacked" "file" "unsupported"
    [(.string "and", .sequence [.mapping [(.string "function", .sequence [
      .mapping [(.string "basic block", .sequence [
        .mapping [(.string "api", .string "CreateFile")]])]])]])]

/-- The parser and `MatchingRuleSet::new` accept a subscope that is the whole body of another
    below the top level, and matching fails on the rule extracted for the outer one. -/
theorem stackedDocument_fails :
    ∃ rule set, @ruleFromDocument .blank .empty "" stackedDocument = .ok rule ∧
      rule.body.stmt.isSubscope = false ∧ @MatchingRuleSet.new .empty [rule] = .ok set ∧
      @MatchingRuleSet.matchScope .empty set .function ∅ .noAddress =
        .error (.unextractedSubscope .basicBlock) :=
  ⟨_, _, rfl, rfl, rfl, rfl⟩

end CapaX
