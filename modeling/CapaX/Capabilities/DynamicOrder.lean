import CapaX.Capabilities.SpanOfCalls
import CapaX.Capabilities.StaticAnalysis

/-
  The order in which a run of the dynamic driver walks its maps of matches does not show: the
  calls, the window of the span matcher, the threads, the processes and the file each keep their
  states alike (`findDynamicCapabilities_deterministic`). The window is the delicate part: it is
  filled and emptied feature by feature, and the match features of a call stand in it in an order
  that depends on the walk.
-/

namespace CapaX

open Collections Control

/-! ## Taking a call out of the window -/

/-- What stays of the locations of a feature when `gone` leaves. -/
def remaining (locs : Option (OrdSet Address)) (gone : OrdSet Address) :
    Option (OrdSet Address) :=
  if LoneGlobal gone then locs
  else locs.bind fun l =>
    let rest := l.eraseAll gone.toList
    if rest.isEmpty then none else some rest

theorem get?_removeLocations (fs : FeatureSet) (e : Feature × OrdSet Address) (f : Feature) :
    (removeLocations fs e).get? f =
      if e.1 == f then remaining (fs.get? f) e.2 else fs.get? f := by
  unfold removeLocations remaining
  by_cases hlone : e.2.card = 1 ∧ Address.noAddress ∈ e.2
  · have hl : LoneGlobal e.2 := hlone
    rw [if_pos hlone, if_pos hl, ite_self]
  · have hl : ¬ LoneGlobal e.2 := hlone
    rw [if_neg hlone, if_neg hl]
    by_cases he : (e.1 == f) = true
    · rw [if_pos he, IndexMap.get?_congr he]
      cases hcur : fs.get? f with
      | none => exact hcur
      | some locs =>
        dsimp only [Option.bind_some]
        split
        · rw [IndexMap.get?_erase, if_pos he]
        · rw [IndexMap.get?_modify, if_pos he, hcur]
          rfl
    · rw [if_neg he]
      cases fs.get? e.1 with
      | none => rfl
      | some locs =>
        dsimp only
        split
        · rw [IndexMap.get?_erase, if_neg he]
        · rw [IndexMap.get?_modify, if_neg he]

theorem get?_removeOverflowing (fs overflowing : FeatureSet) (f : Feature) :
    (removeOverflowing fs overflowing).get? f =
      match overflowing.get? f with
      | none => fs.get? f
      | some gone => remaining (fs.get? f) gone := by
  obtain ⟨l, hl⟩ := overflowing
  unfold removeOverflowing
  dsimp only
  induction l generalizing fs with
  | nil => rfl
  | cons e l ih =>
    obtain ⟨he, hl'⟩ := List.pairwise_cons.mp hl
    rw [List.foldl_cons, ih _ hl', get?_removeLocations]
    cases hef : e.1 == f with
    | false => simp [IndexMap.get?, hef]
    | true =>
      have hnone : (⟨l, hl'⟩ : FeatureSet).get? f = none := by
        rw [IndexMap.get?, Option.map_eq_none_iff, List.find?_eq_none]
        intro x hx hxf
        have hex : (e.1 == x.1) = true := BEq.trans hef (BEq.symm hxf)
        rw [he x hx] at hex
        cases hex
      have hsome : (⟨e :: l, hl⟩ : FeatureSet).get? f = some e.2 := by simp [IndexMap.get?, hef]
      rw [hnone, hsome, if_pos rfl]

namespace FeatureSet

variable {fs fs' : FeatureSet}

/-- Two sets that only lookups of match features tell apart. -/
abbrev Akin (fs fs' : FeatureSet) : Prop := fs.Agree fs' fun _ => False

theorem Akin.trans {fs'' : FeatureSet} (h : fs.Akin fs') (h' : fs'.Akin fs'') : fs.Akin fs'' :=
  ⟨fun f hf => (h.lookup f hf).trans (h'.lookup f hf), h.scanned.trans h'.scanned⟩

theorem scanned_erase (fs : FeatureSet) (f : Feature) :
    scanned (fs.erase f) = fs.scanned.filter fun e => !(e.1 == f) := by
  show (fs.entries.filter _).filter _ = (fs.entries.filter _).filter _
  rw [List.filter_filter, List.filter_filter]
  exact List.filter_congr fun e _ => Bool.and_comm _ _

theorem scanned_modify (fs : FeatureSet) (f : Feature) (u : OrdSet Address → OrdSet Address) :
    scanned (fs.modify f u) = fs.scanned.map fun e => if e.1 == f then (e.1, u e.2) else e := by
  show (fs.entries.map _).filter _ = (fs.entries.filter _).map _
  rw [List.filter_map]
  refine congrArg _ (List.filter_congr fun e _ => ?_)
  rw [Function.comp_apply]
  split
  · rfl
  · rfl

/-- Taking out a feature that the scanning leaves look at needs only what they see. -/
theorem Akin.removeLocations (h : fs.Akin fs') {e : Feature × OrdSet Address}
    (he : e.1.isMatchedRule = false) :
    (CapaX.removeLocations fs e).Akin (CapaX.removeLocations fs' e) := by
  have hnot : ∀ v, e.1 = .matchedRule v → False := by
    intro v hv
    rw [hv] at he
    cases he
  refine ⟨fun f hf => ?_, ?_⟩
  · rw [get?_removeLocations, get?_removeLocations, h.lookup f hf]
  · unfold CapaX.removeLocations
    rw [h.lookup e.1 hnot]
    split
    · exact h.scanned
    · cases fs'.get? e.1 with
      | none => exact h.scanned
      | some locs =>
        dsimp only
        split
        · rw [scanned_erase, scanned_erase, h.scanned]
        · rw [scanned_modify, scanned_modify, h.scanned]

/-- Taking out a match feature leaves what the scanning leaves see. -/
theorem akin_removeLocations (fs : FeatureSet) {e : Feature × OrdSet Address}
    (he : e.1.isMatchedRule = true) : (CapaX.removeLocations fs e).Akin fs := by
  obtain ⟨v, hv⟩ := Feature.eq_matchedRule he
  have hkeep : ∀ x ∈ fs.scanned, (x.1 == e.1) = false := by
    intro x hx
    refine Bool.eq_false_iff.mpr fun hxe => ?_
    have hm := Feature.isMatchedRule_congr hxe
    rw [he] at hm
    have hx := (List.mem_filter.mp hx).2
    rw [hm] at hx
    cases hx
  refine ⟨fun f hf => ?_, ?_⟩
  · rw [get?_removeLocations]
    refine if_neg fun hef => ?_
    rw [hv] at hef
    exact hf v (Feature.matchedRule_beq_iff.mp hef)
  · unfold CapaX.removeLocations
    split
    · rfl
    · split
      · rfl
      · dsimp only
        split
        · rw [scanned_erase]
          exact List.filter_eq_self.mpr fun x hx => by rw [hkeep x hx]; rfl
        · rw [scanned_modify]
          exact (List.map_congr_left fun x hx => by rw [hkeep x hx]; rfl).trans (List.map_id _)

/-- The match features of the call that leaves are of no account for what the scanning leaves
    see. -/
theorem Akin.foldl_removeLocations (es : List (Feature × OrdSet Address)) (h : fs.Akin fs') :
    (es.foldl CapaX.removeLocations fs).Akin
      ((es.filter fun e => !e.1.isMatchedRule).foldl CapaX.removeLocations fs') := by
  induction es generalizing fs fs' with
  | nil => exact h
  | cons e es ih =>
    rw [List.foldl_cons, List.filter_cons]
    cases he : e.1.isMatchedRule with
    | false => exact ih (h.removeLocations he)
    | true => exact ih ((akin_removeLocations fs he).trans h)

theorem Alike.removeOverflowing {S S' : FeatureSet} (h : fs.Alike fs') (hS : S.Alike S') :
    (CapaX.removeOverflowing fs S).Alike (CapaX.removeOverflowing fs' S') := by
  refine ⟨fun f _ => ?_, ?_⟩
  · rw [get?_removeOverflowing, get?_removeOverflowing, h.get?, hS.get?]
  · have hone := Akin.foldl_removeLocations S.entries (h.mono fun _ _ => trivial)
    have hother := Akin.foldl_removeLocations S'.entries
      (Agree.mono (.refl fs' : fs'.Alike fs') fun _ _ => trivial)
    have hsame : S.entries.filter (fun e => !e.1.isMatchedRule) =
        S'.entries.filter fun e => !e.1.isMatchedRule := hS.scanned
    rw [hsame] at hone
    exact hone.scanned.trans hother.scanned.symm

theorem Alike.merge {other other' : FeatureSet} (h : fs.Alike fs') (ho : other.Alike other') :
    (fs.merge other).Alike (fs'.merge other') := by
  rw [merge_eq_mergeOwned, merge_eq_mergeOwned]
  exact h.mergeOwned ho

end FeatureSet

/-! ## The span matcher -/

/-- The same matches, the same window, the same matches of the last span. -/
structure SpanOfCallsMatcher.Same (m m' : SpanOfCallsMatcher) : Prop where
  results : m.results.Same m'.results
  sets : List.Forall₂ FeatureSet.Alike m.currentFeatureSets m'.currentFeatureSets
  features : m.currentFeatures.Alike m'.currentFeatures
  last : m.lastSpanMatches = m'.lastSpanMatches

section

variable [RegexBackend] {rules : List Rule} {set : MatchingRuleSet}

namespace SpanOfCallsMatcher

variable {m m' : SpanOfCallsMatcher}

omit [RegexBackend] in
theorem Same.overflowed (h : m.Same m') :
    List.Forall₂ FeatureSet.Alike m.overflowed.1 m'.overflowed.1 ∧
      m.overflowed.2.Alike m'.overflowed.2 := by
  obtain ⟨results, sets, features, last⟩ := m
  obtain ⟨results', sets', features', last'⟩ := m'
  obtain ⟨_, hsets, hfeatures, _⟩ := h
  dsimp only at hsets hfeatures
  unfold SpanOfCallsMatcher.overflowed
  dsimp only
  rw [hsets.length_eq]
  split
  · cases hsets with
    | nil => exact ⟨.nil, hfeatures⟩
    | cons hS hsets => exact ⟨hsets, hfeatures.removeOverflowing hS⟩
  · exact ⟨hsets, hfeatures⟩

omit [RegexBackend] in
theorem suppressedRules_eq {last : OrdSet String} {encountered encountered' : List String}
    (h : ∀ name, name ∈ encountered ↔ name ∈ encountered') :
    suppressedRules set last encountered = suppressedRules set last encountered' := by
  refine OrdSet.ext_mem fun name => ?_
  rw [mem_suppressedRules, mem_suppressedRules]
  simp only [h]

omit [RegexBackend] in
theorem mem_keys_reorder {order order' : IterOrder} {results : MatchResults} (name : String) :
    name ∈ (order.reorder results).keys ↔ name ∈ (order'.reorder results).keys := by
  have hkeys : ∀ o : IterOrder, name ∈ (o.reorder results).keys ↔ name ∈ results.keys := by
    intro o
    exact ((o.perm results).map (·.1)).mem_iff
  rw [hkeys, hkeys]

/-- One call keeps two matchers the same, whatever the orders of their walks. -/
theorem Same.next [ComDatabase] (hset : MatchingRuleSet.new rules = .ok set) (h : m.Same m')
    (encountered record encountered' record' : IterOrder) (addr : Address) {S S' : FeatureSet}
    (hS : S.Alike S') :
    Related Same (m.next set encountered record addr S)
      (m'.next set encountered' record' addr S') := by
  obtain ⟨hsets, hfeatures⟩ := h.overflowed
  have hwindow : (m.overflowed.2.merge S).Alike (m'.overflowed.2.merge S') := hfeatures.merge hS
  refine Related.bind (matchScope_alike hset hwindow) fun results results' hr => ?_
  subst hr
  refine .ok ⟨fun name => ?_, List.rel_append hsets (.cons hS .nil), hwindow, rfl⟩
  have hsuppressed : suppressedRules set m.lastSpanMatches
      ((encountered.reorder results).keys.filter fun name => decide (name ∉ m.lastSpanMatches)) =
      suppressedRules set m'.lastSpanMatches
        ((encountered'.reorder results).keys.filter fun name =>
          decide (name ∉ m'.lastSpanMatches)) := by
    rw [h.last]
    refine suppressedRules_eq fun name => ?_
    rw [List.mem_filter, List.mem_filter, mem_keys_reorder]
  rw [get?_record, get?_record, hsuppressed, h.results name]

end SpanOfCallsMatcher

/-! ## Threads -/

theorem findCallCapabilities_related (order order' : IterOrder) (addr : Address)
    (call : CallFeatures) (globals : List Feature) :
    Related (fun out out' => out.1.Alike out'.1 ∧ out.2 = out'.2)
      (findCallCapabilities set order addr call globals)
      (findCallCapabilities set order' addr call globals) := by
  refine Related.bind (.of_eq rfl) fun results results' hr => ?_
  subst hr
  exact .ok ⟨promoteMatches_alike (.refl _) fun _ => rfl, rfl⟩

structure CallLoop.Same (l l' : CallLoop) : Prop where
  features : l.features.Alike l'.features
  callMatches : l.callMatches.Same l'.callMatches
  spanMatcher : l.spanMatcher.Same l'.spanMatcher

theorem CallLoop.Same.visitCall [ComDatabase] (hset : MatchingRuleSet.new rules = .ok set)
    {l l' : CallLoop} (h : l.Same l') (orders orders' : ThreadOrders) (globals : List Feature)
    (e : Address × CallFeatures) :
    Related CallLoop.Same (CapaX.visitCall set orders globals l e)
      (CapaX.visitCall set orders' globals l' e) := by
  refine Related.bind (findCallCapabilities_related (orders.promoteCall e.1)
    (orders'.promoteCall e.1) e.1 e.2 globals) fun out out' hout => ?_
  refine Related.bind (h.spanMatcher.next hset (orders.encountered e.1) (orders.record e.1)
    (orders'.encountered e.1) (orders'.record e.1) e.1 hout.1) fun m m' hm => ?_
  exact .ok ⟨h.features.merge hout.1, h.callMatches.extend fun name => by rw [hout.2], hm⟩

structure ThreadCapabilities.Same (c c' : ThreadCapabilities) : Prop where
  features : c.features.Alike c'.features
  threadMatches : c.threadMatches.Same c'.threadMatches
  spanMatches : c.spanMatches.Same c'.spanMatches
  callMatches : c.callMatches.Same c'.callMatches

theorem findThreadCapabilities_related [ComDatabase] (hset : MatchingRuleSet.new rules = .ok set)
    (orders orders' : ThreadOrders) (addr : Address) (thread : ThreadFeatures)
    (globals : List Feature) :
    Related ThreadCapabilities.Same (findThreadCapabilities set orders addr thread globals)
      (findThreadCapabilities set orders' addr thread globals) := by
  have hstart : CallLoop.Same ⟨∅, ∅, .new⟩ ⟨∅, ∅, .new⟩ :=
    ⟨.refl ∅, fun _ => rfl, ⟨fun _ => rfl, .nil, .refl ∅, rfl⟩⟩
  refine Related.bind (Related.foldlM hstart fun e _ l l' hl =>
    hl.visitCall hset orders orders' globals e) fun l l' hl => ?_
  have hseed := seed_alike hl.features thread.features globals
  refine Related.bind (matchScope_alike hset hseed) fun results results' hr => ?_
  subst hr
  exact .ok ⟨promoteMatches_alike hseed fun _ => rfl, fun _ => rfl, hl.spanMatcher.results,
    hl.callMatches⟩

/-! ## Processes -/

structure LowerMatches.Same (l l' : LowerMatches) : Prop where
  thread : l.thread.Same l'.thread
  span : l.span.Same l'.span
  call : l.call.Same l'.call

structure ProcessCapabilities.Same (c c' : ProcessCapabilities) : Prop where
  processMatches : c.processMatches.Same c'.processMatches
  lower : c.lower.Same c'.lower
  count : c.featureCount = c'.featureCount

theorem findProcessCapabilities_related [ComDatabase] (hset : MatchingRuleSet.new rules = .ok set)
    (orders orders' : ProcessOrders) (addr : Address) (process : ProcessFeatures)
    (globals : List Feature) :
    Related ProcessCapabilities.Same (findProcessCapabilities set orders addr process globals)
      (findProcessCapabilities set orders' addr process globals) := by
  have hloop : Related (fun acc acc' => acc.1.Alike acc'.1 ∧ acc.2.Same acc'.2)
      (process.threads.entries.foldlM (visitThread set orders globals) (∅, ⟨∅, ∅, ∅⟩))
      (process.threads.entries.foldlM (visitThread set orders' globals) (∅, ⟨∅, ∅, ∅⟩)) := by
    refine Related.foldlM ⟨.refl ∅, fun _ => rfl, fun _ => rfl, fun _ => rfl⟩
      fun e _ acc acc' hacc => ?_
    refine Related.bind (findThreadCapabilities_related hset (orders.thread e.1)
      (orders'.thread e.1) e.1 e.2 globals) fun c c' hc => ?_
    exact .ok ⟨hacc.1.mergeOwned hc.features, hacc.2.thread.extend hc.threadMatches,
      hacc.2.span.extend hc.spanMatches, hacc.2.call.extend hc.callMatches⟩
  refine Related.bind hloop fun acc acc' hacc => ?_
  have hseed := seed_alike hacc.1 process.features globals
  refine Related.bind (matchScope_alike hset hseed) fun results results' hr => ?_
  subst hr
  exact .ok ⟨fun _ => rfl, hacc.2, hseed.len_eq⟩

/-! ## The run -/

structure DynamicMatches.Same (m m' : DynamicMatches) : Prop where
  process : m.process.Same m'.process
  lower : m.lower.Same m'.lower
  counts : m.processFeatureCounts = m'.processFeatureCounts

theorem DynamicMatches.Same.visitProcess [ComDatabase]
    (hset : MatchingRuleSet.new rules = .ok set) {m m' : DynamicMatches} (h : m.Same m')
    (orders orders' : DynamicOrders) (globals : List Feature) (e : Address × ProcessFeatures) :
    Related DynamicMatches.Same (CapaX.visitProcess set orders globals m e)
      (CapaX.visitProcess set orders' globals m' e) := by
  refine Related.bind (findProcessCapabilities_related hset (orders.process e.1)
    (orders'.process e.1) e.1 e.2 globals) fun c c' hc => ?_
  exact .ok ⟨h.process.extend hc.processMatches, ⟨h.lower.thread.extend hc.lower.thread,
    h.lower.span.extend hc.lower.span, h.lower.call.extend hc.lower.call⟩,
    by rw [h.counts, hc.count]⟩

omit [RegexBackend] in
theorem processAndLowerFeatures_alike {orders orders' : DynamicOrders} {all all' : DynamicMatches}
    (h : all.Same all') : (processAndLowerFeatures set orders all).Alike
      (processAndLowerFeatures set orders' all') := by
  refine publishMatches_alike fun e => ?_
  simp only [List.mem_append, IterOrder.mem_reorder, h.process e.1, h.lower.thread e.1,
    h.lower.span e.1, h.lower.call e.1]

/-- The same matches of every rule, with the same evidence, and the same counts. -/
structure DynamicCapabilities.Same (c c' : DynamicCapabilities) : Prop where
  results : ∀ name, c.results.get? name = c'.results.get? name
  fileFeatureCount : c.fileFeatureCount = c'.fileFeatureCount
  processFeatureCounts : c.processFeatureCounts = c'.processFeatureCounts

theorem findDynamicCapabilities_related [ComDatabase]
    (hset : MatchingRuleSet.new rules = .ok set) (freeze : DynamicFeatures)
    (orders orders' : DynamicOrders) :
    Related DynamicCapabilities.Same (findDynamicCapabilities set freeze orders)
      (findDynamicCapabilities set freeze orders') := by
  have hstart : DynamicMatches.Same ⟨∅, ⟨∅, ∅, ∅⟩, []⟩ ⟨∅, ⟨∅, ∅, ∅⟩, []⟩ :=
    ⟨fun _ => rfl, ⟨fun _ => rfl, fun _ => rfl, fun _ => rfl⟩, rfl⟩
  refine Related.bind (Related.foldlM hstart fun e _ m m' hm =>
    hm.visitProcess hset orders orders' freeze.globalFeatures e) fun all all' hall => ?_
  refine Related.bind (findFileCapabilities_related hset (processAndLowerFeatures_alike hall)
    freeze.fileFeatures freeze.globalFeatures) fun out out' ho => ?_
  subst ho
  have hnil : MatchResults.Same ∅ ∅ := fun _ => rfl
  refine .ok ⟨?_, rfl, hall.counts⟩
  exact (((((hnil.extend hall.lower.call).extend hall.lower.span).extend
    hall.lower.thread).extend hall.process).extend fun _ => rfl)

/-- Whatever orders the maps of matches are walked in, the dynamic driver fails with the same
    error, or records the same matches and counts. -/
theorem findDynamicCapabilities_deterministic [ComDatabase]
    (hset : MatchingRuleSet.new rules = .ok set) (freeze : DynamicFeatures)
    (orders orders' : DynamicOrders) :
    Related DynamicCapabilities.Same (findDynamicCapabilities set freeze orders)
      (findDynamicCapabilities set freeze orders') :=
  findDynamicCapabilities_related hset freeze orders orders'

end

/-- A process of one thread, which opens a file and writes it. -/
def writingProcess : DynamicFeatures where
  globalFeatures := [.os "windows"]
  fileFeatures := []
  processes := .ofList [(.process 0 1, ⟨[], .ofList [(.thread 0 1 1, writingThread)]⟩)]

theorem findDynamicCapabilities_deterministic_writing :
    ∃ set, @MatchingRuleSet.new .empty openThenWrite = .ok set ∧ ∀ orders orders',
      Related DynamicCapabilities.Same
        (@findDynamicCapabilities .empty set writingProcess orders)
        (@findDynamicCapabilities .empty set writingProcess orders') := by
  refine ⟨_, rfl, fun orders orders' => ?_⟩
  exact @findDynamicCapabilities_deterministic .empty openThenWrite _ .empty rfl writingProcess
    orders orders'

end CapaX
