import CapaX.Capabilities.Drivers
import CapaX.Capabilities.Matching
import CapaX.Engine.Locations

/-
  What the steps of the drivers do to the locations of features: seeding adds the features of a
  unit where they are and the globals at no address, and a promotion adds the values of the rules
  that matched at the address of the unit. Which rules match on a feature set depends on its
  lookups alone (`matchScope_of_lookups`); only the evidence can differ.
-/

namespace CapaX

open Collections Control

/-! ## Seeding -/

theorem mem_locations_inserts {α : Type} (feature : α → Feature) (addr : α → Address)
    (l : List α) {fs : FeatureSet} {f : Feature} {a : Address} :
    a ∈ (l.foldl (fun fs e => fs.insert (feature e) (addr e)) fs).locations f ↔
      a ∈ fs.locations f ∨ ∃ e ∈ l, (feature e == f) = true ∧ a = addr e := by
  induction l generalizing fs with
  | nil => exact (or_iff_left fun ⟨_, he, _⟩ => List.not_mem_nil he).symm
  | cons e l ih =>
    rw [List.foldl_cons, ih, FeatureSet.mem_locations_insert, or_assoc, List.exists_mem_cons_iff]

theorem FeatureSet.Located.inserts {α : Type} (feature : α → Feature) (addr : α → Address)
    (l : List α) {fs : FeatureSet} (h : fs.Located) :
    (l.foldl (fun fs e => fs.insert (feature e) (addr e)) fs).Located := by
  induction l generalizing fs with
  | nil => exact h
  | cons e l ih => exact ih (h.insert (feature e) (addr e))

theorem mem_locations_seed {fs : FeatureSet} {features : List Located} {globals : List Feature}
    {f : Feature} {a : Address} :
    a ∈ (seed fs features globals).locations f ↔
      a ∈ fs.locations f ∨ (∃ e ∈ features, (e.2 == f) = true ∧ a = e.1) ∨
        (∃ g ∈ globals, (g == f) = true ∧ a = .noAddress) := by
  have hglobals : a ∈ (seed fs features globals).locations f ↔
      a ∈ (features.foldl (fun fs e => fs.insert e.2 e.1) fs).locations f ∨
        ∃ g ∈ globals, (g == f) = true ∧ a = .noAddress :=
    mem_locations_inserts id (fun _ => .noAddress) globals
  rw [hglobals, mem_locations_inserts (·.2) (·.1) features, or_assoc]

theorem FeatureSet.Located.seed {fs : FeatureSet} (h : fs.Located) (features : List CapaX.Located)
    (globals : List Feature) : (CapaX.seed fs features globals).Located :=
  FeatureSet.Located.inserts id (fun _ => .noAddress) globals
    (FeatureSet.Located.inserts (·.2) (·.1) features h)

/-! ## Promotion -/

theorem mem_locations_promoteMatches {set : MatchingRuleSet} {order : IterOrder} {fs : FeatureSet}
    {results : MatchResults} {f : Feature} {a : Address} :
    a ∈ (promoteMatches set order fs results).locations f ↔
      a ∈ fs.locations f ∨ ∃ name res rule, results.get? name = some res ∧
        set.get name = some rule ∧ (∃ v ∈ rule.published, f = .matchedRule v) ∧
          ∃ r ∈ res, a = r.1 := by
  rw [promoteMatches_eq, FeatureSet.mem_locations_publishAll]
  refine or_congr_right ⟨?_, ?_⟩
  · intro ⟨p, hp, hf, ha⟩
    obtain ⟨name, res, rule, hres, hget, r, hr, rfl⟩ := mem_promotions.mp hp
    exact ⟨name, res, rule, hres, hget, hf, r, hr, OrdSet.mem_singleton.mp ha⟩
  · intro ⟨name, res, rule, hres, hget, hf, r, hr, ha⟩
    refine ⟨_, mem_promotions.mpr ⟨name, res, rule, hres, hget, r, hr, rfl⟩, hf, ?_⟩
    exact OrdSet.mem_singleton.mpr ha

theorem FeatureSet.Located.promoteMatches {fs : FeatureSet} (h : fs.Located)
    (set : MatchingRuleSet) (order : IterOrder) (results : MatchResults) :
    (CapaX.promoteMatches set order fs results).Located := by
  rw [promoteMatches_eq]
  refine h.publishAll fun p hp => ?_
  obtain ⟨_, _, _, _, _, r, _, rfl⟩ := mem_promotions.mp hp
  exact ⟨r.1, OrdSet.mem_singleton.mpr rfl⟩

/-! ## Match features -/

section

variable {fs : FeatureSet} {v : String}

theorem has_inserts {α : Type} (feature : α → Feature) (addr : α → Address) (l : List α) :
    FeatureSet.Has (l.foldl (fun fs e => fs.insert (feature e) (addr e)) fs) v ↔
      fs.Has v ∨ ∃ e ∈ l, feature e = .matchedRule v := by
  induction l generalizing fs with
  | nil => exact (or_iff_left fun ⟨_, he, _⟩ => List.not_mem_nil he).symm
  | cons e l ih =>
    have hstep : (fs.insert (feature e) (addr e)).Has v ↔ fs.Has v ∨ feature e = .matchedRule v :=
      FeatureSet.has_upsert
    rw [List.foldl_cons, ih, hstep, or_assoc, List.exists_mem_cons_iff]

theorem has_seed {features : List Located} {globals : List Feature} :
    (seed fs features globals).Has v ↔
      fs.Has v ∨ (∃ e ∈ features, e.2 = .matchedRule v) ∨ .matchedRule v ∈ globals := by
  have hglobals : (seed fs features globals).Has v ↔
      FeatureSet.Has (features.foldl (fun fs e => fs.insert e.2 e.1) fs) v ∨
        ∃ g ∈ globals, g = .matchedRule v := has_inserts id (fun _ => .noAddress) globals
  rw [hglobals, has_inserts (·.2) (·.1) features, or_assoc, exists_eq_right]

theorem has_guardedInsert {f : Feature} {addr : Address} :
    (guardedInsert fs f addr).Has v ↔ fs.Has v ∨ f = .matchedRule v := by
  unfold guardedInsert
  split
  · exact FeatureSet.has_upsert
  · exact FeatureSet.has_upsert

theorem has_seedFile {features : List Located} {globals : List Feature} :
    (seedFile features globals).Has v ↔
      (∃ e ∈ features, e.2 = .matchedRule v) ∨ .matchedRule v ∈ globals := by
  have hfold : ∀ {α : Type} (f : α → Feature) (a : α → Address) (l : List α) (fs : FeatureSet),
      FeatureSet.Has (l.foldl (fun fs e => guardedInsert fs (f e) (a e)) fs) v ↔
        fs.Has v ∨ ∃ e ∈ l, f e = .matchedRule v := by
    intro α f a l
    induction l with
    | nil => exact fun fs => (or_iff_left fun ⟨_, he, _⟩ => List.not_mem_nil he).symm
    | cons e l ih =>
      intro fs
      rw [List.foldl_cons, ih, has_guardedInsert, or_assoc, List.exists_mem_cons_iff]
  have hglobals : (seedFile features globals).Has v ↔
      FeatureSet.Has (features.foldl (fun fs e => guardedInsert fs e.2 e.1) (∅ : FeatureSet)) v ∨
        ∃ g ∈ globals, g = .matchedRule v := hfold id (fun _ => .noAddress) globals _
  rw [hglobals, hfold (·.2) (·.1) features, exists_eq_right, or_iff_right FeatureSet.not_has_empty]

theorem has_promoteMatches {set : MatchingRuleSet} {order : IterOrder} {results : MatchResults} :
    (promoteMatches set order fs results).Has v ↔
      fs.Has v ∨ ∃ name res rule, results.get? name = some res ∧ res ≠ [] ∧
        set.get name = some rule ∧ v ∈ rule.published := by
  rw [promoteMatches_eq, FeatureSet.has_publishAll]
  refine or_congr_right ⟨?_, ?_⟩
  · intro ⟨p, hp, hv⟩
    obtain ⟨name, res, rule, hres, hget, r, hr, rfl⟩ := mem_promotions.mp hp
    exact ⟨name, res, rule, hres, List.ne_nil_of_mem hr, hget, hv⟩
  · intro ⟨name, res, rule, hres, hne, hget, hv⟩
    obtain ⟨r, hr⟩ := List.exists_mem_of_ne_nil res hne
    exact ⟨_, mem_promotions.mpr ⟨name, res, rule, hres, hget, r, hr, rfl⟩, hv⟩

theorem has_publishMatches {set : MatchingRuleSet}
    {entries : List (String × List (Address × MatchResult))} :
    (publishMatches set entries).Has v ↔
      ∃ name res rule, (name, res) ∈ entries ∧ set.get name = some rule ∧ v ∈ rule.published := by
  rw [publishMatches_eq, FeatureSet.has_publishAll, or_iff_right FeatureSet.not_has_empty]
  constructor
  · intro ⟨p, hp, hv⟩
    obtain ⟨name, res, rule, he, hget, rfl⟩ := mem_publications.mp hp
    exact ⟨name, res, rule, he, hget, hv⟩
  · intro ⟨name, res, rule, he, hget, hv⟩
    exact ⟨_, mem_publications.mpr ⟨name, res, rule, he, hget, rfl⟩, hv⟩

theorem isSome_extendMatches {order : IterOrder} {into source : MatchResults} {name : String} :
    ((extendMatches order into source).get? name).isSome = true ↔
      (into.get? name).isSome = true ∨ (source.get? name).isSome = true := by
  rw [get?_extendMatches]
  cases source.get? name with
  | none => simp
  | some res => simp

end

/-! ## Matching -/

section

variable [RegexBackend]

/-- A run records at its own address, and no rule without a match. -/
theorem matchRules_addr {addr : Address} {rules : List Rule} {fs : FeatureSet}
    {out : FeatureSet × MatchResults} (h : rules.foldlM (matchRule addr) (fs, ∅) = .ok out)
    {name : String} {res : List (Address × MatchResult)} (hres : out.2.get? name = some res) :
    res ≠ [] ∧ ∀ r ∈ res, r.1 = addr := by
  revert name res
  refine foldlM_inv (P := fun acc => ∀ {name res}, acc.2.get? name = some res →
    res ≠ [] ∧ ∀ r ∈ res, r.1 = addr) h ?_ ?_
  · intro name res hres
    rw [IndexMap.get?_empty] at hres
    cases hres
  · intro rule _ acc acc' hacc hstep name res hres
    rcases matchRule_cases hstep with ⟨_, rfl⟩ | ⟨_, full, _, rfl⟩
    · exact hacc hres
    · have hres : (acc.2.upsert rule.name fun o => o.getD [] ++ [(addr, full)]).get? name =
          some res := hres
      rw [IndexMap.get?_upsert] at hres
      split at hres
      · obtain rfl := Option.some.inj hres
        refine ⟨by simp, fun r hr => ?_⟩
        rcases List.mem_append.mp hr with hr | hr
        · cases hold : acc.2.get? rule.name with
          | none =>
            rw [hold] at hr
            exact absurd hr List.not_mem_nil
          | some old =>
            rw [hold] at hr
            exact (hacc hold).2 r hr
        · rw [List.mem_singleton.mp hr]
      · exact hacc hres

variable [ComDatabase] {rules : List Rule} {set : MatchingRuleSet}

/-- The matcher is the run over the rules listed for the scope. -/
theorem matchScopeResults_ok (hset : MatchingRuleSet.new rules = .ok set) {scope : Scope}
    {fs : FeatureSet} {addr : Address} {results : MatchResults} :
    set.matchScopeResults scope fs addr = .ok results ↔
      ∃ out, (set.rulesForScope scope).foldlM (matchRule addr) (fs, ∅) = .ok out ∧
        out.2 = results := by
  obtain ⟨_, es, hes, rfl⟩ := MatchingRuleSet.new_ok hset
  unfold MatchingRuleSet.matchScopeResults
  rw [MatchingRuleSet.matchScope_ofExpanded hes, bind_eq_ok]
  refine exists_congr fun out => and_congr_right fun _ => ?_
  exact ⟨Except.ok.inj, congrArg Except.ok⟩

theorem matchScopeResults_addr (hset : MatchingRuleSet.new rules = .ok set) {scope : Scope}
    {fs : FeatureSet} {addr : Address} {results : MatchResults}
    (h : set.matchScopeResults scope fs addr = .ok results) {name : String}
    {res : List (Address × MatchResult)} (hres : results.get? name = some res) :
    res ≠ [] ∧ ∀ r ∈ res, r.1 = addr := by
  obtain ⟨out, hrun, rfl⟩ := (matchScopeResults_ok hset).mp h
  exact matchRules_addr hrun hres

omit [ComDatabase] in
/-- One turn on two sets with the same lookups: the rule matches on both or on none. -/
theorem matchRule_of_lookups {addr : Address} {rule : Rule} (hr : rule.Ready)
    {acc acc' : FeatureSet × MatchResults} (hfs : ∀ f, acc.1.get? f = acc'.1.get? f)
    (hres : ∀ name, (acc.2.get? name).isSome = (acc'.2.get? name).isSome) :
    Related (fun out out' => (∀ f, out.1.get? f = out'.1.get? f) ∧
        ∀ name, (out.2.get? name).isSome = (out'.2.get? name).isSome)
      (matchRule addr acc rule) (matchRule addr acc' rule) := by
  have hbool := evaluateBoolean_of_lookups hfs rule.body
  rcases hr with heval | hsub
  · have hok : ∀ fs : FeatureSet, ∃ full, evaluate fs false rule.body = .ok full := fun _ => by
      obtain ⟨full, hfull, _⟩ := evaluate_full heval
      exact ⟨full, hfull⟩
    obtain ⟨full, hfull⟩ := hok acc.1
    obtain ⟨full', hfull'⟩ := hok acc'.1
    refine Related.bind (.of_eq hbool) fun b b' hb => ?_
    subst hb
    cases b with
    | false => exact .ok ⟨hfs, hres⟩
    | true =>
      show Related _ (evaluate acc.1 false rule.body >>= _)
        (evaluate acc'.1 false rule.body >>= _)
      rw [hfull, hfull']
      refine .ok ⟨fun f => ?_, fun name => ?_⟩
      · show (indexRuleMatches acc.1 rule _).get? f = (indexRuleMatches acc'.1 rule _).get? f
        rw [indexRuleMatches_eq, indexRuleMatches_eq]
        by_cases hv : ∃ v ∈ rule.published, f = .matchedRule v
        · obtain ⟨v, hv, rfl⟩ := hv
          rw [FeatureSet.get?_publish_of_mem hv, FeatureSet.get?_publish_of_mem hv, hfs]
        · rw [FeatureSet.get?_publish_of_not fun v h he => hv ⟨v, h, he⟩,
            FeatureSet.get?_publish_of_not fun v h he => hv ⟨v, h, he⟩, hfs]
      · show ((acc.2.upsert rule.name _).get? name).isSome =
          ((acc'.2.upsert rule.name _).get? name).isSome
        rw [IndexMap.get?_upsert, IndexMap.get?_upsert]
        split
        · rfl
        · exact hres name
  · obtain ⟨s, b, d, hbody⟩ := Node.exists_subscope hsub
    unfold matchRule
    rw [hbody]
    exact .error _

/-- Which rules match depends on the lookups of the feature set alone. -/
theorem matchScope_of_lookups (hset : MatchingRuleSet.new rules = .ok set) {scope : Scope}
    {fs fs' : FeatureSet} {addr : Address} (h : ∀ f, fs.get? f = fs'.get? f) :
    Related (fun results results' => ∀ name,
        (results.get? name).isSome = (results'.get? name).isSome)
      (set.matchScopeResults scope fs addr) (set.matchScopeResults scope fs' addr) := by
  obtain ⟨_, es, hes, rfl⟩ := MatchingRuleSet.new_ok hset
  unfold MatchingRuleSet.matchScopeResults
  rw [MatchingRuleSet.matchScope_ofExpanded hes, MatchingRuleSet.matchScope_ofExpanded hes]
  have hready : ∀ r ∈ (MatchingRuleSet.ofExpanded es).rulesForScope scope, r.Ready := fun r hr =>
    ready_of_expandAndExtract hes r (MatchingRuleSet.mem_rulesForScope_ofExpanded hr).1
  refine Related.bind (R := fun out out' => (∀ f, out.1.get? f = out'.1.get? f) ∧
    ∀ name, (out.2.get? name).isSome = (out'.2.get? name).isSome) ?_ fun out out' ho => .ok ho.2
  refine Related.foldlM ⟨h, fun _ => rfl⟩ fun rule hrule acc acc' hacc => ?_
  exact matchRule_of_lookups (hready rule hrule) hacc.1 hacc.2

end

end CapaX
