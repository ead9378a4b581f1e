import CapaX.Capabilities.Gathering
import CapaX.Capabilities.Unfolding

/-
  Matching a unit against the meaning of the rules. `Gathers` says that a feature set holds the
  features of a unit and the matches of some units below it, and `Collects` that a map of matches
  holds the matches of some units. When the set handed to the matcher gathers what is inside a
  unit, the rules recorded are those that hold there (`Expansion.recorded_iff`), and both relations
  go through the steps of a driver: merging, seeding, promotion and collection.

  The truth of the expanded rules is `sourceTruth`, so what is recorded is what the given rules
  mean, subscopes in place.
-/

namespace CapaX

open Collections Control Node

section

variable {υ : Type} [ComDatabase] [RegexBackend] {rules es : List Rule} {H : Hierarchy υ}

/-- The rule is listed for its scopes: it is no subscope rule, or some listed rule needs it. -/
def Listed (es : List Rule) (e : Rule) : Prop :=
  e ∈ es ∧ e.name ∈ scopeRuleNames es (indexByName es) (indexRulesByNamespace es)

/-- A listed rule looks at the value. -/
def Sought (es : List Rule) (v : String) : Prop := ∃ e, Listed es e ∧ v ∈ e.body.observed

/-- A value is matched at a unit, by the truth of the expanded rules. -/
noncomputable abbrev Matched (H : Hierarchy υ) (rules es : List Rule) : String → υ → Bool :=
  Hierarchy.matchedBy es (sourceTruth H rules)

/-- The features of `own`, and the matches of the units `us` as far as they are looked for. -/
structure Gathers (H : Hierarchy υ) (rules es : List Rule) (fs own : FeatureSet)
    (us : List υ) : Prop where
  own : ∀ f, (∀ v, f ≠ .matchedRule v) → fs.get? f = own.get? f
  at_ : ∀ v, Sought es v → ∀ a, a ∈ fs.locations (.matchedRule v) ↔
    ∃ u ∈ us, Matched H rules es v u = true ∧ H.addr u = a
  placed : ∀ v, fs.Has v → ∃ a, a ∈ fs.locations (.matchedRule v)

/-- The matches of the listed rules at the units `us`, in order. -/
structure Collects (H : Hierarchy υ) (rules es : List Rule) (results : MatchResults)
    (us : List υ) : Prop where
  addrs : ∀ e, Listed es e → ((results.get? e.name).getD []).map (·.1) =
    (us.filter (sourceTruth H rules e)).map H.addr
  listed : ∀ name res, results.get? name = some res →
    res ≠ [] ∧ ∃ e, Listed es e ∧ e.name = name

/-! ## One unit -/

omit [ComDatabase] [RegexBackend] in
theorem listed_of_mem_rulesForScope {e : Rule} {scope : Scope}
    (h : e ∈ (MatchingRuleSet.ofExpanded es).rulesForScope scope) : Listed es e := by
  obtain ⟨he, _, hscope⟩ := MatchingRuleSet.mem_rulesForScope_ofExpanded h
  refine ⟨he, ?_⟩
  have hname : e.name ∈ rulesForScope es (indexByName es) (indexRulesByNamespace es) scope := by
    rw [← Untangled.map_name_rulesForScope es hscope]
    exact List.mem_map_of_mem h
  exact Graphs.postorderAll_closed (Untangled.scopeRuleNames_spec es).2.1 (fun _ ha => ha) e.name
    (List.mem_filter.mp hname).1

omit [ComDatabase] [RegexBackend] in
/-- A body reads alike on two sides that agree on its leaves and counts. -/
theorem reads_eq_of_agree {R R' : Reading} {n : Node} (hn : n.Evaluable)
    (hleaf : ∀ f, (∀ kind name, f ≠ .com kind name) →
      (∀ v, f = .matchedRule v → v ∈ n.observed) → R.leaf f = R'.leaf f)
    (hrange : ∀ f min max, (∀ v, f = .matchedRule v → v ∈ n.observed) →
      R.range f min max = R'.range f min max)
    (hsome : R.some = R'.some) : n.reads R = n.reads R' := by
  refine Node.reads_congr fun m hm => ?_
  have hobs : ∀ v, m.stmt.observed = some v → v ∈ n.observed := fun v hv =>
    List.mem_filterMap.mpr ⟨m, hm, hv⟩
  have heval : m.stmt.evaluable = true := hn m hm
  unfold Reading.AgreeAt
  split
  · next f min max hs =>
    rw [hs] at hobs
    exact hrange f min max fun v hv => by subst hv; exact hobs v rfl
  · next s b hs =>
    rw [hs] at heval
    cases heval
  · next f hs =>
    rw [hs] at hobs heval
    refine hleaf f (fun kind name hf => ?_) fun v hv => by subst hv; exact hobs v rfl
    subst hf
    cases heval
  · rw [hsome]
  · trivial
  · trivial
  · trivial

/-- The matches published so far agree with the truth as far as a body looks at them. -/
theorem reads_final {fs' : FeatureSet} {n : Node} {u : υ} (hn : n.Evaluable)
    (hown : ∀ f, (∀ v, f ≠ .matchedRule v) → fs'.get? f = (H.features u).get? f)
    (hat : ∀ v ∈ n.observed, ∀ a, a ∈ fs'.locations (.matchedRule v) ↔
      ∃ u' ∈ H.within u, Matched H rules es v u' = true ∧ H.addr u' = a)
    (hhas : ∀ v ∈ n.observed, fs'.Has v ↔ ∃ u' ∈ H.within u, Matched H rules es v u' = true) :
    n.reads fs'.reading = n.reads (H.reading (Matched H rules es) u) := by
  refine reads_eq_of_agree hn (fun f hcom hobs => ?_) (fun f min max hobs => ?_) rfl
  · by_cases hf : ∃ v, f = .matchedRule v
    · obtain ⟨v, rfl⟩ := hf
      have hleaf : leafHolds fs' (.matchedRule v) = true ↔ fs'.Has v := by
        unfold FeatureSet.Has
        rw [← IndexMap.containsKey_eq_isSome]
        exact Iff.rfl
      show leafHolds fs' (.matchedRule v) = (H.within u).any (Matched H rules es v)
      rw [Bool.eq_iff_iff, hleaf, hhas v (hobs v rfl), List.any_eq_true]
    · have hne : ∀ v, f ≠ .matchedRule v := fun v hv => hf ⟨v, hv⟩
      have hsame : leafHolds fs' f = leafHolds (H.features u) f := leafHolds_congr fun g hg =>
        hown g fun v hv => hne v ((hg v hv).trans hv)
      show leafHolds fs' f = H.leafAt (Matched H rules es) u f
      rw [hsame]
      cases f with
      | matchedRule v => exact absurd rfl (hne v)
      | com kind name => exact absurd rfl (hcom kind name)
      | _ => rfl
  · have hcount : locationCount fs' f = H.countAt (Matched H rules es) u f := by
      have hcard : ∀ fs : FeatureSet, locationCount fs f = UInt32.ofNat (fs.locations f).card := by
        intro fs
        unfold locationCount FeatureSet.locations
        cases fs.get? f with
        | none => rfl
        | some locs => rfl
      by_cases hf : ∃ v, f = .matchedRule v
      · obtain ⟨v, rfl⟩ := hf
        have hset : fs'.locations (.matchedRule v) =
            H.matchAddresses (Matched H rules es) (H.within u) v := by
          refine OrdSet.ext_mem fun a => (hat v (hobs v rfl) a).trans ?_
          unfold Hierarchy.matchAddresses
          simp only [OrdSet.mem_ofList, List.mem_map, List.mem_filter, and_assoc]
        rw [hcard, hset]
        rfl
      · have hne : ∀ v, f ≠ .matchedRule v := fun v hv => hf ⟨v, hv⟩
        have hsame : locationCount fs' f = locationCount (H.features u) f := by
          unfold locationCount
          rw [hown f hne]
        rw [hsame]
        cases f with
        | matchedRule v => exact absurd rfl (hne v)
        | _ => rfl
    show inRange (locationCount fs' f) min max = inRange (H.countAt _ u f) min max
    rw [hcount]

namespace Expansion

omit [RegexBackend] in
/-- What a listed rule looks at is published by listed rules. -/
theorem listed_of_sought (h : Expansion rules es) {v : String} (hv : Sought es v) {a : Rule}
    (ha : a ∈ es) (hp : v ∈ a.published) : Listed es a := by
  obtain ⟨e, ⟨he, hname⟩, hobs⟩ := hv
  obtain ⟨_, hclosed, _⟩ := Untangled.scopeRuleNames_spec es
  exact ⟨ha, hclosed e.name hname a.name (h.publisher_edge he ha hobs hp)⟩

/-- A listed rule that matches at a unit is listed for the scope of the unit. -/
theorem mem_of_sourceTruth (h : Expansion rules es) (hu : NamesUnshared es) {e : Rule}
    (he : Listed es e) {u : υ} (hscope : H.scope u ∈ allScopes)
    (ht : sourceTruth H rules e u = true) :
    e ∈ (MatchingRuleSet.ofExpanded es).rulesForScope (H.scope u) := by
  rw [h.sourceTruth_eq_holds hu he.1, Bool.and_eq_true] at ht
  exact h.untangled.mem_rulesForScope he.1 he.2 hscope ht.1

variable {u : υ} {fs fs' : FeatureSet} {results : MatchResults}

/-- What the matcher has published in the end, once the rules before a rule are decided. -/
theorem published_iff (h : Expansion rules es) (hu : NamesUnshared es)
    (hscope : H.scope u ∈ allScopes)
    (hrun : (MatchingRuleSet.ofExpanded es).matchScope (H.scope u) fs (H.addr u) =
      .ok (fs', results)) {pre post : List Rule} {e : Rule}
    (hL : (MatchingRuleSet.ofExpanded es).rulesForScope (H.scope u) = pre ++ e :: post)
    (hpre : ∀ a ∈ pre, (results.get? a.name).isSome = true ↔ sourceTruth H rules a u = true)
    {v : String} (hv : v ∈ e.body.observed) :
    fs'.get? (.matchedRule v) =
      if Matched H rules es v u = true then
        some (fs.locations (.matchedRule v) ∪ .singleton (H.addr u))
      else fs.get? (.matchedRule v) := by
  rw [(h.settled hrun).published v]
  refine if_congr ?_ rfl rfl
  have he : e ∈ (MatchingRuleSet.ofExpanded es).rulesForScope (H.scope u) := by
    rw [hL]
    exact List.mem_append_right _ List.mem_cons_self
  rw [Hierarchy.matchedBy_eq_true]
  constructor
  · intro ⟨a, ha, hsome, hp⟩
    refine ⟨a, (MatchingRuleSet.mem_rulesForScope_ofExpanded ha).1, hp, ?_⟩
    exact (hpre a (h.publishers_first hL ha hv hp)).mp hsome
  · intro ⟨a, ha, hp, ht⟩
    have hlisted : Listed es a :=
      h.listed_of_sought ⟨e, listed_of_mem_rulesForScope he, hv⟩ ha hp
    have hmem := h.mem_of_sourceTruth hu hlisted hscope ht
    exact ⟨a, hmem, (hpre a (h.publishers_first hL hmem hv hp)).mpr ht, hp⟩

/-- A value is found where its rules match within the unit. -/
theorem mem_locations_published (hg : Gathers H rules es fs (H.features u) (H.inside u))
    {v : String} (hv : Sought es v)
    (hpub : fs'.get? (.matchedRule v) = if Matched H rules es v u = true then
      some (fs.locations (.matchedRule v) ∪ .singleton (H.addr u))
    else fs.get? (.matchedRule v)) (a : Address) :
    a ∈ fs'.locations (.matchedRule v) ↔
      ∃ u' ∈ H.within u, Matched H rules es v u' = true ∧ H.addr u' = a := by
  rw [Hierarchy.within, List.exists_mem_cons_iff, ← hg.at_ v hv a]
  unfold FeatureSet.locations
  rw [hpub]
  by_cases hm : Matched H rules es v u = true
  · rw [if_pos hm, Option.getD_some, OrdSet.mem_union, OrdSet.mem_singleton, or_comm]
    exact or_congr_left ⟨fun ha => ⟨hm, ha.symm⟩, fun ha => ha.2.symm⟩
  · rw [if_neg hm]
    exact (or_iff_right fun ha => hm ha.1).symm

theorem has_published (hg : Gathers H rules es fs (H.features u) (H.inside u)) {v : String}
    (hv : Sought es v)
    (hpub : fs'.get? (.matchedRule v) = if Matched H rules es v u = true then
      some (fs.locations (.matchedRule v) ∪ .singleton (H.addr u))
    else fs.get? (.matchedRule v)) :
    fs'.Has v ↔ ∃ u' ∈ H.within u, Matched H rules es v u' = true := by
  have hat := mem_locations_published hg hv hpub
  constructor
  · intro hhas
    have hsome : ∃ a, a ∈ fs'.locations (.matchedRule v) := by
      unfold FeatureSet.Has at hhas
      unfold FeatureSet.locations
      rw [hpub] at hhas ⊢
      by_cases hm : Matched H rules es v u = true
      · rw [if_pos hm]
        exact ⟨H.addr u, OrdSet.mem_union.mpr (Or.inr (OrdSet.mem_singleton.mpr rfl))⟩
      · rw [if_neg hm] at hhas ⊢
        exact hg.placed v hhas
    obtain ⟨a, ha⟩ := hsome
    obtain ⟨u', hu', hm, -⟩ := (hat a).mp ha
    exact ⟨u', hu', hm⟩
  · intro hwithin
    obtain ⟨u', hu', hm⟩ := hwithin
    have ha := (hat (H.addr u')).mpr ⟨u', hu', hm, rfl⟩
    obtain ⟨locs, hget, -⟩ := FeatureSet.mem_locations_iff.mp ha
    unfold FeatureSet.Has
    rw [hget]
    rfl

/-- The rules recorded at a unit are those that match there. -/
theorem recorded_iff (h : Expansion rules es) (hu : NamesUnshared es)
    (hscope : H.scope u ∈ allScopes) (hg : Gathers H rules es fs (H.features u) (H.inside u))
    (hrun : (MatchingRuleSet.ofExpanded es).matchScope (H.scope u) fs (H.addr u) =
      .ok (fs', results)) {e : Rule}
    (he : e ∈ (MatchingRuleSet.ofExpanded es).rulesForScope (H.scope u)) :
    (results.get? e.name).isSome = true ↔ sourceTruth H rules e u = true := by
  obtain ⟨pre, post, hL⟩ := List.append_of_mem he
  clear he
  -- by the position of the rule: the rules before it are decided
  induction hn : pre.length using Nat.strong_induction_on generalizing pre e post with
  | _ n ih =>
    have hpre : ∀ a ∈ pre, (results.get? a.name).isSome = true ↔
        sourceTruth H rules a u = true := by
      intro a ha
      obtain ⟨pre', post', rfl⟩ := List.append_of_mem ha
      refine ih pre'.length ?_ pre' (post' ++ e :: post) ?_ rfl
      · rw [← hn]
        simp
      · rw [hL]
        simp
    have he : e ∈ (MatchingRuleSet.ofExpanded es).rulesForScope (H.scope u) := by
      rw [hL]
      exact List.mem_append_right _ List.mem_cons_self
    have hsought : ∀ v ∈ e.body.observed, Sought es v := fun v hv =>
      ⟨e, listed_of_mem_rulesForScope he, hv⟩
    have hpub := fun v hv => h.published_iff hu hscope hrun hL hpre (v := v) hv
    have hown : ∀ f, (∀ v, f ≠ .matchedRule v) → fs'.get? f = (H.features u).get? f :=
      fun f hf => ((h.settled hrun).frame.lookup f fun v hv => absurd hv (hf v)).symm.trans
        (hg.own f hf)
    have hat : ∀ v ∈ e.body.observed, ∀ a, a ∈ fs'.locations (.matchedRule v) ↔
        ∃ u' ∈ H.within u, Matched H rules es v u' = true ∧ H.addr u' = a :=
      fun v hv a => mem_locations_published hg (hsought v hv) (hpub v hv) a
    have hhas : ∀ v ∈ e.body.observed, fs'.Has v ↔
        ∃ u' ∈ H.within u, Matched H rules es v u' = true :=
      fun v hv => has_published hg (hsought v hv) (hpub v hv)
    obtain ⟨hes, hcontains, _⟩ := MatchingRuleSet.mem_rulesForScope_ofExpanded he
    rw [h.sourceTruth_eq_holds hu hes, hcontains, Bool.true_and, Hierarchy.holds_eq_reads]
    rcases ready_of_expandAndExtract h.expanded e hes with heval | hsub
    · have hread := reads_final heval hown hat hhas
      rcases (h.settled hrun).decided e he with ⟨hb, hres⟩ | ⟨hb, _, _, hres⟩
      · rw [evaluateBoolean_eq heval, hread] at hb
        rw [hres, Except.ok.inj hb]
        exact Iff.rfl
      · rw [evaluateBoolean_eq heval, hread] at hb
        rw [hres, Except.ok.inj hb]
        exact Iff.rfl
    · obtain ⟨s, b, d, hbody⟩ := exists_subscope hsub
      rcases (h.settled hrun).decided e he with ⟨hb, _⟩ | ⟨hb, _⟩
      · rw [hbody, evaluateBoolean] at hb
        cases hb
      · rw [hbody, evaluateBoolean] at hb
        cases hb

end Expansion

/-! ## The steps of a driver -/

section

variable {fs other own own' : FeatureSet} {us us' : List υ} {u : υ} {results source : MatchResults}
  {scope : Scope}

theorem Gathers.empty : Gathers H rules es ∅ ∅ [] where
  own _ _ := rfl
  at_ _ _ _ := iff_of_false FeatureSet.not_mem_locations_empty fun ⟨_, h, _⟩ =>
    List.not_mem_nil h
  placed _ h := absurd h FeatureSet.not_has_empty

/-- The order of the units does not matter. -/
theorem Gathers.of_mem_iff (h : Gathers H rules es fs own us) (hus : ∀ u, u ∈ us ↔ u ∈ us') :
    Gathers H rules es fs own us' :=
  ⟨h.own, fun v hv a => by rw [h.at_ v hv a]; simp only [hus], h.placed⟩

theorem Gathers.mergeOwned (h : Gathers H rules es fs own us)
    (ho : Gathers H rules es other own' us') :
    Gathers H rules es (fs.mergeOwned other) (own.mergeOwned own') (us ++ us') := by
  refine ⟨fun f hf => ?_, fun v hv a => ?_, fun v hv => ?_⟩
  · rw [FeatureSet.get?_mergeOwned, FeatureSet.get?_mergeOwned, h.own f hf, ho.own f hf]
  · rw [FeatureSet.mem_locations_mergeOwned, h.at_ v hv, ho.at_ v hv]
    simp only [List.mem_append, or_and_right, exists_or]
  · rcases FeatureSet.has_mergeOwned.mp hv with hv | hv
    · obtain ⟨a, ha⟩ := h.placed v hv
      exact ⟨a, FeatureSet.mem_locations_mergeOwned.mpr (Or.inl ha)⟩
    · obtain ⟨a, ha⟩ := ho.placed v hv
      exact ⟨a, FeatureSet.mem_locations_mergeOwned.mpr (Or.inr ha)⟩

omit [ComDatabase] [RegexBackend] in
/-- Insertions look a feature up alike in sets that look it up alike. -/
theorem get?_inserts_congr {α : Type} (feature : α → Feature) (addr : α → Address) (l : List α)
    {f : Feature} (h : fs.get? f = own.get? f) :
    (l.foldl (fun fs e => FeatureSet.insert fs (feature e) (addr e)) fs).get? f =
      (l.foldl (fun fs e => FeatureSet.insert fs (feature e) (addr e)) own).get? f := by
  induction l generalizing fs own with
  | nil => exact h
  | cons e l ih =>
    rw [List.foldl_cons, List.foldl_cons]
    refine ih ?_
    rw [FeatureSet.get?_insert, FeatureSet.get?_insert]
    by_cases hf : (feature e == f) = true
    · rw [if_pos hf, if_pos hf, IndexMap.get?_congr hf, IndexMap.get?_congr hf, h]
    · rw [if_neg hf, if_neg hf, h]

theorem Gathers.seed (h : Gathers H rules es fs own us) {features : List Located}
    {globals : List Feature} (hf : ∀ e ∈ features, ∀ v, e.2 ≠ .matchedRule v)
    (hglobals : ∀ g ∈ globals, ∀ v, g ≠ .matchedRule v) :
    Gathers H rules es (CapaX.seed fs features globals) (CapaX.seed own features globals) us := by
  refine ⟨fun f hfm => ?_, fun v hv a => ?_, fun v hv => ?_⟩
  · exact get?_inserts_congr id (fun _ => .noAddress) globals
      (get?_inserts_congr (·.2) (·.1) features (h.own f hfm))
  · rw [← h.at_ v hv a, mem_locations_seed, or_iff_left]
    rintro (⟨e, he, hev, _⟩ | ⟨g, hg, hgv, _⟩)
    · exact hf e he v (Feature.matchedRule_beq_iff.mp (BEq.symm hev))
    · exact hglobals g hg v (Feature.matchedRule_beq_iff.mp (BEq.symm hgv))
  · rcases has_seed.mp hv with hv | ⟨e, he, hev⟩ | hg
    · obtain ⟨a, ha⟩ := h.placed v hv
      exact ⟨a, mem_locations_seed.mpr (Or.inl ha)⟩
    · exact absurd hev (hf e he v)
    · exact absurd rfl (hglobals _ hg v)

theorem Collects.empty : Collects H rules es ∅ [] where
  addrs _ _ := by rw [IndexMap.get?_empty]; rfl
  listed _ _ h := by rw [IndexMap.get?_empty] at h; cases h

theorem Collects.extend (h : Collects H rules es results us) {order : IterOrder}
    (hs : Collects H rules es source us') :
    Collects H rules es (extendMatches order results source) (us ++ us') := by
  have hget := get?_extendMatches order results source
  constructor
  · intro e he
    have hr := h.addrs e he
    have hs := hs.addrs e he
    rw [hget, List.filter_append, List.map_append, ← hr, ← hs]
    cases source.get? e.name with
    | none => simp
    | some res => simp
  · intro name res hres
    rw [hget] at hres
    cases hn : source.get? name with
    | none =>
      rw [hn] at hres
      exact h.listed name res hres
    | some res' =>
      rw [hn] at hres
      obtain ⟨hne, hlisted⟩ := hs.listed name res' hn
      refine ⟨?_, hlisted⟩
      rw [← Option.some.inj hres]
      simp [hne]

/-- The matches the matcher returns at a unit. -/
theorem Expansion.collects (h : Expansion rules es) (hu : NamesUnshared es)
    (hscope : H.scope u ∈ allScopes) (hg : Gathers H rules es fs (H.features u) (H.inside u))
    (hrun : (MatchingRuleSet.ofExpanded es).matchScopeResults (H.scope u) fs (H.addr u) =
      .ok results) : Collects H rules es results [u] := by
  obtain ⟨⟨fs', results'⟩, hmatch, hres⟩ := bind_eq_ok.mp hrun
  obtain rfl := Except.ok.inj hres
  have hsettled := h.settled hmatch
  constructor
  · intro e he
    by_cases ht : sourceTruth H rules e u = true
    · have hmem := h.mem_of_sourceTruth hu he hscope ht
      have hsome := (h.recorded_iff hu hscope hg hmatch hmem).mpr ht
      rcases hsettled.decided e hmem with ⟨_, hnone⟩ | ⟨_, full, _, hfull⟩
      · rw [hnone] at hsome
        cases hsome
      · rw [hfull, List.filter_cons, if_pos ht]
        rfl
    · have hnone : results'.get? e.name = none := by
        by_contra hne
        obtain ⟨a, ha, hname⟩ := hsettled.recorded e.name hne
        have hae : a = e := h.untangled.unique
          (MatchingRuleSet.mem_rulesForScope_ofExpanded ha).1 he.1 hname
        subst hae
        exact ht ((h.recorded_iff hu hscope hg hmatch ha).mp (Option.isSome_iff_ne_none.mpr hne))
      rw [hnone, List.filter_cons, if_neg ht]
      rfl
  · intro name res hres
    obtain ⟨a, ha, hname⟩ := hsettled.recorded name fun hnone => by
      rw [hnone] at hres
      cases hres
    refine ⟨?_, a, listed_of_mem_rulesForScope ha, hname⟩
    rw [MatchingRuleSet.matchScope_ofExpanded h.expanded] at hmatch
    exact (matchRules_addr hmatch hres).1

/-- The listed rules a map of matches has entries of are what the rule set finds. -/
theorem Collects.matched_iff (hc : Collects H rules es results us) (h : Expansion rules es)
    {v : String} (hv : Sought es v) (a : Address) :
    (∃ name res rule, results.get? name = some res ∧
        (MatchingRuleSet.ofExpanded es).get name = some rule ∧ v ∈ rule.published ∧
          ∃ r ∈ res, a = r.1) ↔
      ∃ u ∈ us, Matched H rules es v u = true ∧ H.addr u = a := by
  have hat : ∀ {e : Rule}, Listed es e → ((∃ res, results.get? e.name = some res ∧
      ∃ r ∈ res, a = r.1) ↔ ∃ u ∈ us, sourceTruth H rules e u = true ∧ H.addr u = a) := by
    intro e he
    have haddrs := hc.addrs e he
    have hmem : a ∈ ((results.get? e.name).getD []).map (·.1) ↔
        ∃ u ∈ us, sourceTruth H rules e u = true ∧ H.addr u = a := by
      rw [haddrs]
      simp only [List.mem_map, List.mem_filter, and_assoc]
    rw [← hmem]
    cases results.get? e.name with
    | none => simp
    | some res => simp [eq_comm]
  constructor
  · intro ⟨name, res, rule, hres, hget, hp, hr⟩
    obtain ⟨hrule, hname⟩ := indexByName_some hget
    subst hname
    have hlisted := h.listed_of_sought hv hrule hp
    obtain ⟨u, hus, ht, ha⟩ := (hat hlisted).mp ⟨res, hres, hr⟩
    exact ⟨u, hus, Hierarchy.matchedBy_eq_true.mpr ⟨rule, hrule, hp, ht⟩, ha⟩
  · intro ⟨u, hus, hm, ha⟩
    obtain ⟨e, he, hp, ht⟩ := Hierarchy.matchedBy_eq_true.mp hm
    have hlisted := h.listed_of_sought hv he hp
    obtain ⟨res, hres, hr⟩ := (hat hlisted).mpr ⟨u, hus, ht, ha⟩
    exact ⟨e.name, res, e, hres, h.untangled.index he, hp, hr⟩

/-- A promotion adds the matches of the unit. -/
theorem Gathers.promoteMatches (hg : Gathers H rules es fs own us) (h : Expansion rules es)
    {order : IterOrder} (hc : Collects H rules es results us') :
    Gathers H rules es
      (CapaX.promoteMatches (MatchingRuleSet.ofExpanded es) order fs results) own (us ++ us') := by
  refine ⟨fun f hf => ?_, fun v hv a => ?_, fun v hv => ?_⟩
  · rw [promoteMatches_eq, FeatureSet.get?_publishAll_of_not fun _ _ v _ => hf v, hg.own f hf]
  · have hiff := hc.matched_iff h hv a
    rw [mem_locations_promoteMatches, hg.at_ v hv]
    simp only [Feature.matchedRule.injEq, exists_eq_right', List.mem_append, or_and_right,
      exists_or]
    rw [← hiff]
  · rcases has_promoteMatches.mp hv with hv | ⟨name, res, rule, hres, hne, hget, hp⟩
    · obtain ⟨a, ha⟩ := hg.placed v hv
      exact ⟨a, mem_locations_promoteMatches.mpr (Or.inl ha)⟩
    · obtain ⟨r, hr⟩ := List.exists_mem_of_ne_nil res hne
      exact ⟨r.1, mem_locations_promoteMatches.mpr
        (Or.inr ⟨name, res, rule, hres, hget, ⟨v, hp, rfl⟩, r, hr, rfl⟩)⟩

end

end

end CapaX
