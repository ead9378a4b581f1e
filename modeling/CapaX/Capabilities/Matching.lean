import CapaX.Capabilities.Indexing
import CapaX.Engine.Evidence
import CapaX.Rules.Meta

/-
  Runs of the matcher over a list of rules. `matchRule_cases` says what one turn does, and the
  run lemmas follow from it: what a run leaves as it was, which match features it publishes
  (`matchRules_published`), and with what evidence a rule is recorded (`matchRules_at`).

  A run fails only at a rule whose body still has a subscope at its root
  (`matchScope_never_fails_iff`), which happens when a subscope is the whole body of another.
-/

namespace CapaX

open Collections

section

variable [RegexBackend] {addr : Address}

/-! ## One turn -/

theorem matchRule_cases {acc acc' : FeatureSet × MatchResults} {rule : Rule}
    (h : matchRule addr acc rule = .ok acc') :
    (evaluateBoolean acc.1 rule.body = .ok false ∧ acc' = acc) ∨
      (evaluateBoolean acc.1 rule.body = .ok true ∧
        ∃ full, evaluate acc.1 false rule.body = .ok full ∧
          acc' = (acc.1.publish rule.published (.singleton addr),
            acc.2.upsert rule.name fun o => o.getD [] ++ [(addr, full)])) := by
  obtain ⟨b, hb, h⟩ := Control.bind_eq_ok.mp h
  cases b with
  | false => exact Or.inl ⟨hb, (Except.ok.inj h).symm⟩
  | true =>
    obtain ⟨full, hfull, h⟩ := Control.bind_eq_ok.mp h
    refine Or.inr ⟨hb, full, hfull, ?_⟩
    rw [← indexRuleMatches_eq]
    exact (Except.ok.inj h).symm

/-! ## What a run leaves as it was -/

variable {rules : List Rule} {acc acc' : FeatureSet × MatchResults}

theorem matchRules_get?_of_not (h : rules.foldlM (matchRule addr) acc = .ok acc') {f : Feature}
    (hf : ∀ r ∈ rules, ∀ v ∈ r.published, f ≠ .matchedRule v) :
    acc'.1.get? f = acc.1.get? f := by
  refine Control.foldlM_inv (P := fun b => b.1.get? f = acc.1.get? f) h rfl ?_
  intro r hr b b' hb hstep
  rcases matchRule_cases hstep with ⟨_, rfl⟩ | ⟨_, full, _, rfl⟩
  · exact hb
  · exact (FeatureSet.get?_publish_of_not fun v hv => hf r hr v hv).trans hb

theorem matchRules_results_of_not (h : rules.foldlM (matchRule addr) acc = .ok acc')
    {name : String} (hn : ∀ r ∈ rules, r.name ≠ name) :
    acc'.2.get? name = acc.2.get? name := by
  refine Control.foldlM_inv (P := fun b => b.2.get? name = acc.2.get? name) h rfl ?_
  intro r hr b b' hb hstep
  rcases matchRule_cases hstep with ⟨_, rfl⟩ | ⟨_, full, _, rfl⟩
  · exact hb
  · have hne : ¬ (r.name == name) = true := fun he => hn r hr (eq_of_beq he)
    show (b.2.upsert r.name _).get? name = _
    rw [IndexMap.get?_upsert, if_neg hne]
    exact hb

theorem matchRules_scanned (h : rules.foldlM (matchRule addr) acc = .ok acc') :
    acc'.1.scanned = acc.1.scanned := by
  refine Control.foldlM_inv (P := fun b => b.1.scanned = acc.1.scanned) h rfl ?_
  intro r hr b b' hb hstep
  rcases matchRule_cases hstep with ⟨_, rfl⟩ | ⟨_, full, _, rfl⟩
  · exact hb
  · exact FeatureSet.scanned_publish.trans hb

/-- A run records rules of its list only. -/
theorem matchRules_recorded (h : rules.foldlM (matchRule addr) acc = .ok acc') {name : String}
    (hnew : acc.2.get? name = none) (hrec : acc'.2.get? name ≠ none) :
    ∃ r ∈ rules, r.name = name := by
  by_contra hno
  refine hrec ((matchRules_results_of_not h fun r hr he => hno ⟨r, hr, he⟩).trans hnew)

/-- A run takes every rule through its turn. -/
theorem matchRules_split {pre post : List Rule} {rule : Rule}
    (h : (pre ++ rule :: post).foldlM (matchRule addr) acc = .ok acc') :
    ∃ acc1 acc2, pre.foldlM (matchRule addr) acc = .ok acc1 ∧
      matchRule addr acc1 rule = .ok acc2 ∧ post.foldlM (matchRule addr) acc2 = .ok acc' := by
  rw [List.foldlM_append] at h
  obtain ⟨acc1, hpre, h⟩ := Control.bind_eq_ok.mp h
  rw [List.foldlM_cons] at h
  obtain ⟨acc2, hrule, hpost⟩ := Control.bind_eq_ok.mp h
  exact ⟨acc1, acc2, hpre, hrule, hpost⟩

/-! ## What a run records -/

/-- The evidence a rule is recorded with is the one of the features at its turn. -/
theorem matchRules_at (hn : (rules.map (·.name)).Nodup)
    (h : rules.foldlM (matchRule addr) acc = .ok acc') {rule : Rule} (hr : rule ∈ rules)
    (hnew : acc.2.get? rule.name = none) :
    ∃ pre post fs res, rules = pre ++ rule :: post ∧
      pre.foldlM (matchRule addr) acc = .ok (fs, res) ∧
      (∀ vs : String → Prop, (∀ r ∈ rule :: post, ∀ v ∈ r.published, ¬ vs v) →
        fs.Agree acc'.1 vs) ∧
      ((evaluateBoolean fs rule.body = .ok false ∧ acc'.2.get? rule.name = none) ∨
        (evaluateBoolean fs rule.body = .ok true ∧
          ∃ full, evaluate fs false rule.body = .ok full ∧
            acc'.2.get? rule.name = some [(addr, full)])) := by
  obtain ⟨pre, post, rfl⟩ := List.append_of_mem hr
  obtain ⟨⟨fs, res⟩, acc2, hpre, hrule, hpost⟩ := matchRules_split h
  have hnames := List.nodup_middle.mp (by rwa [List.map_append, List.map_cons] at hn)
  have hother : ∀ r ∈ pre ++ post, r.name ≠ rule.name := fun r hr he => by
    refine (List.nodup_cons.mp hnames).1 (he ▸ ?_)
    rw [← List.map_append]
    exact List.mem_map_of_mem hr
  have hres : res.get? rule.name = none :=
    (matchRules_results_of_not hpre fun r hr => hother r (List.mem_append_left _ hr)).trans hnew
  have hlast : acc'.2.get? rule.name = acc2.2.get? rule.name :=
    matchRules_results_of_not hpost fun r hr => hother r (List.mem_append_right _ hr)
  refine ⟨pre, post, fs, res, rfl, hpre, fun vs hvs => ?_, ?_⟩
  · have hrun : (rule :: post).foldlM (matchRule addr) (fs, res) = .ok acc' := by
      rw [List.foldlM_cons, hrule]
      exact hpost
    refine ⟨fun f hf => (matchRules_get?_of_not hrun fun r hr v hv he => ?_).symm,
      (matchRules_scanned hrun).symm⟩
    exact hvs r hr v hv (hf v he)
  · rcases matchRule_cases hrule with ⟨hb, rfl⟩ | ⟨hb, full, hfull, rfl⟩
    · exact Or.inl ⟨hb, hlast.trans hres⟩
    · refine Or.inr ⟨hb, full, hfull, hlast.trans ?_⟩
      show (res.upsert rule.name _).get? rule.name = _
      rw [IndexMap.get?_upsert, if_pos (beq_self_eq_true _), hres]
      rfl

/-- Exactly the values of the recorded rules are published, at the address of the run. -/
theorem matchRules_published (hn : (rules.map (·.name)).Nodup)
    (h : rules.foldlM (matchRule addr) acc = .ok acc')
    (hnew : ∀ r ∈ rules, acc.2.get? r.name = none) (v : String) :
    acc'.1.get? (.matchedRule v) =
      if ∃ r ∈ rules, (acc'.2.get? r.name).isSome = true ∧ v ∈ r.published then
        some ((acc.1.get? (.matchedRule v)).getD ∅ ∪ .singleton addr)
      else acc.1.get? (.matchedRule v) := by
  induction rules generalizing acc with
  | nil =>
    obtain rfl := Except.ok.inj h
    rw [if_neg (fun ⟨_, hr, _⟩ => List.not_mem_nil hr)]
  | cons rule rules ih =>
    rw [List.foldlM_cons] at h
    obtain ⟨acc1, hrule, h⟩ := Control.bind_eq_ok.mp h
    obtain ⟨hname, hn⟩ := List.nodup_cons.mp hn
    have hother : ∀ r ∈ rules, r.name ≠ rule.name := fun r hr he =>
      hname (List.mem_map.mpr ⟨r, hr, he⟩)
    have hlast : acc'.2.get? rule.name = acc1.2.get? rule.name :=
      matchRules_results_of_not h hother
    have hsame : ∀ r ∈ rules, acc1.2.get? r.name = none := fun r hr => by
      have hstep : [rule].foldlM (matchRule addr) acc = .ok acc1 := by
        rw [List.foldlM_cons, hrule]
        rfl
      rw [matchRules_results_of_not hstep fun r' hr' he => hother r hr
        (by rw [← he, List.mem_singleton.mp hr'])]
      exact hnew r (List.mem_cons_of_mem _ hr)
    rw [ih hn h hsame]
    rcases matchRule_cases hrule with ⟨_, rfl⟩ | ⟨_, full, _, rfl⟩
    · have hnone : acc'.2.get? rule.name = none := hlast.trans (hnew rule List.mem_cons_self)
      refine if_congr ?_ rfl rfl
      constructor
      · intro ⟨r, hr, hp⟩
        exact ⟨r, List.mem_cons_of_mem _ hr, hp⟩
      · intro ⟨r, hr, hsome, hp⟩
        rcases List.mem_cons.mp hr with rfl | hr
        · rw [hnone] at hsome
          cases hsome
        · exact ⟨r, hr, hsome, hp⟩
    · have hsome : (acc'.2.get? rule.name).isSome = true := by
        rw [hlast]
        show ((acc.2.upsert rule.name _).get? rule.name).isSome = true
        rw [IndexMap.get?_upsert, if_pos (beq_self_eq_true _)]
        rfl
      by_cases hv : v ∈ rule.published
      · rw [if_pos (c := ∃ r ∈ rule :: rules, _) ⟨rule, List.mem_cons_self, hsome, hv⟩,
          FeatureSet.get?_publish_of_mem hv]
        split
        · rw [Option.getD_some, OrdSet.union_assoc, OrdSet.union_self]
        · rfl
      · have hsame : (acc.1.publish rule.published (.singleton addr)).get? (.matchedRule v) =
            acc.1.get? (.matchedRule v) :=
          FeatureSet.get?_publish_of_not fun w hw he => hv (Feature.matchedRule.inj he ▸ hw)
        rw [hsame]
        refine if_congr ?_ rfl rfl
        constructor
        · intro ⟨r, hr, hp⟩
          exact ⟨r, List.mem_cons_of_mem _ hr, hp⟩
        · intro ⟨r, hr, hsome, hp⟩
          rcases List.mem_cons.mp hr with rfl | hr
          · exact absurd hp hv
          · exact ⟨r, hr, hsome, hp⟩

end

end CapaX
