import CapaX.Capabilities.DynamicOrder
import CapaX.ResultDocument.Sites

/-
  The sites of a dynamic run (`sited_of_dynamic`). The evidence of a span of calls
  points into the window that ends with the call: a call that leaves the live union takes its
  locations with it, all but a lone `noAddress` (`SpanOfCallsMatcher.Slides`).
-/

namespace CapaX

open Collections Control

/-! ## Units -/

def callMentions (c : Address × CallFeatures) : Address → Prop :=
  Mentions c.1 c.2.features fun _ => False

/-- The window that ends with the last of the calls. -/
def lastCalls (calls : List (Address × CallFeatures)) : List (Address × CallFeatures) :=
  calls.drop (calls.length - spanSize)

def spanMentions (calls : List (Address × CallFeatures)) (a : Address) : Prop :=
  a = .noAddress ∨ ∃ c ∈ lastCalls calls, callMentions c a

def threadMentions (t : Address × ThreadFeatures) : Address → Prop :=
  Mentions t.1 t.2.features fun a => ∃ c ∈ t.2.calls.entries, callMentions c a

def processMentions (p : Address × ProcessFeatures) : Address → Prop :=
  Mentions p.1 p.2.features fun a => ∃ t ∈ p.2.threads.entries, threadMentions t a

/-- The units of a thread: itself, its calls, and the spans that end with one of them. -/
inductive ThreadSite (t : Address × ThreadFeatures) : Scope → Address → (Address → Prop) → Prop
  | thread : ThreadSite t .thread t.1 (threadMentions t)
  | call {c : Address × CallFeatures} (hc : c ∈ t.2.calls.entries) :
      ThreadSite t .call c.1 (callMentions c)
  | span {calls : List (Address × CallFeatures)} {c : Address × CallFeatures}
      (h : calls ++ [c] <+: t.2.calls.entries) :
      ThreadSite t .spanOfCalls c.1 (spanMentions (calls ++ [c]))

/-- The units of a process: itself and those of its threads. -/
inductive ProcessSite (p : Address × ProcessFeatures) : Scope → Address → (Address → Prop) → Prop
  | process : ProcessSite p .process p.1 (processMentions p)
  | thread {t : Address × ThreadFeatures} {scope : Scope} {a : Address} {L : Address → Prop}
      (ht : t ∈ p.2.threads.entries) (h : ThreadSite t scope a L) : ProcessSite p scope a L

namespace DynamicFeatures

/-- The units of all processes. -/
def LowerSite (freeze : DynamicFeatures) (scope : Scope) (a : Address) (L : Address → Prop) :
    Prop := ∃ p ∈ freeze.processes.entries, ProcessSite p scope a L

@[inherit_doc CapaX.fileMentions]
def fileMentions (freeze : DynamicFeatures) : Address → Prop :=
  Mentions .noAddress freeze.fileFeatures fun a => ∃ scope L, freeze.LowerSite scope a L

/-- The units of a dynamic sample. The file is at no address. -/
inductive Site (freeze : DynamicFeatures) : Scope → Address → (Address → Prop) → Prop
  | file : Site freeze .file .noAddress freeze.fileMentions
  | lower {scope : Scope} {a : Address} {L : Address → Prop} (h : freeze.LowerSite scope a L) :
      Site freeze scope a L

end DynamicFeatures

/-! ## The window -/

theorem lastCalls_append (calls : List (Address × CallFeatures)) (c : Address × CallFeatures) :
    lastCalls (calls ++ [c]) =
      (if (lastCalls calls).length = spanSize then (lastCalls calls).tail else lastCalls calls) ++
        [c] := by
  have hpos : 0 < spanSize := by decide
  have hlen : (lastCalls calls).length = min calls.length spanSize := by
    rw [lastCalls, List.length_drop]
    omega
  unfold lastCalls at hlen ⊢
  rw [List.length_append, List.length_singleton, List.drop_append_of_le_length (by omega)]
  congr 1
  split
  · rw [List.tail_drop]
    congr 1
    omega
  · have hzero : calls.length - spanSize = 0 := by omega
    have hzero' : calls.length + 1 - spanSize = 0 := by omega
    rw [hzero, hzero']

/-- What the window keeps true: its sets are within the last calls, and the live union has a
    location only from one of the sets, or no address. A lone `noAddress` stays when its call
    leaves. -/
structure SpanOfCallsMatcher.Slides (calls : List (Address × CallFeatures))
    (m : SpanOfCallsMatcher) : Prop where
  sets : List.Forall₂ (fun c S => FeatureSet.Within (callMentions c) S) (lastCalls calls)
    m.currentFeatureSets
  features : ∀ f, ∀ a ∈ m.currentFeatures.locations f,
    a = .noAddress ∨ ∃ S ∈ m.currentFeatureSets, a ∈ S.locations f

namespace SpanOfCallsMatcher.Slides

variable {calls : List (Address × CallFeatures)} {m : SpanOfCallsMatcher}

theorem within (h : m.Slides calls) : m.currentFeatures.Within (spanMentions calls) := by
  intro f a ha
  obtain hnone | ⟨S, hS, ha⟩ := h.features f a ha
  · exact .inl hnone
  · obtain ⟨c, hc, hwithin⟩ : ∃ c ∈ lastCalls calls, S.Within (callMentions c) := by
      obtain ⟨i, hi, rfl⟩ := List.mem_iff_getElem.mp hS
      have hi' : i < (lastCalls calls).length := h.sets.length_eq ▸ hi
      exact ⟨_, List.getElem_mem hi', h.sets.get hi' hi⟩
    exact .inr ⟨c, hc, hwithin f a ha⟩

/-- The oldest call leaves a full window. -/
theorem overflowed (h : m.Slides calls) :
    List.Forall₂ (fun c S => FeatureSet.Within (callMentions c) S)
        (if (lastCalls calls).length = spanSize then (lastCalls calls).tail else lastCalls calls)
        m.overflowed.1 ∧
      ∀ f, ∀ a ∈ m.overflowed.2.locations f,
        a = .noAddress ∨ ∃ S ∈ m.overflowed.1, a ∈ S.locations f := by
  obtain ⟨hsets, hfeatures⟩ := h
  obtain ⟨results, sets, current, last⟩ := m
  unfold SpanOfCallsMatcher.overflowed
  dsimp only at hsets hfeatures ⊢
  generalize lastCalls calls = window at hsets ⊢
  rw [hsets.length_eq]
  split
  · cases sets with
    | nil =>
      cases hsets with
      | nil => exact ⟨.nil, hfeatures⟩
    | cons oldest sets =>
      cases hsets with
      | cons _ hsets =>
        refine ⟨hsets, fun f a ha => ?_⟩
        obtain ⟨hcur, hstays⟩ := mem_locations_removeOverflowing.mp ha
        obtain hnone | ⟨S, hS, hmem⟩ := hfeatures f a hcur
        · exact .inl hnone
        · obtain rfl | hS := List.mem_cons.mp hS
          · have hlone : LoneGlobal (S.locations f) := by
              by_contra hnot
              exact hstays ⟨hnot, hmem⟩
            exact .inl (hlone.eq_noAddress hmem)
          · exact .inr ⟨S, hS, hmem⟩
  · exact ⟨hsets, hfeatures⟩

/-- A call enters the window. -/
theorem push (h : m.Slides calls) {c : Address × CallFeatures} {S : FeatureSet}
    (hS : S.Within (callMentions c)) {m' : SpanOfCallsMatcher}
    (hsets : m'.currentFeatureSets = m.overflowed.1 ++ [S])
    (hcurrent : m'.currentFeatures = m.overflowed.2.merge S) : m'.Slides (calls ++ [c]) := by
  obtain ⟨hkept, hfeatures⟩ := h.overflowed
  refine ⟨?_, fun f a ha => ?_⟩
  · rw [lastCalls_append, hsets]
    exact List.rel_append hkept (.cons hS .nil)
  · rw [hcurrent] at ha
    rw [hsets]
    obtain ha | ha := FeatureSet.mem_locations_merge.mp ha
    · obtain hnone | ⟨T, hT, ha⟩ := hfeatures f a ha
      · exact .inl hnone
      · exact .inr ⟨T, List.mem_append_left _ hT, ha⟩
    · exact .inr ⟨S, List.mem_append_right _ List.mem_cons_self, ha⟩

end SpanOfCallsMatcher.Slides

section

variable [ComDatabase] [RegexBackend] {rules : List Rule} {set : MatchingRuleSet}
  {Unit : Scope → Address → (Address → Prop) → Prop} {globals : List Feature}

theorem findCallCapabilities_sited (hset : MatchingRuleSet.new rules = .ok set)
    {order : IterOrder} {c : Address × CallFeatures} (hunit : Unit .call c.1 (callMentions c))
    {out : FeatureSet × MatchResults}
    (hrun : findCallCapabilities set order c.1 c.2 globals = .ok out) :
    out.1.Within (callMentions c) ∧ Sited set Unit out.2 := by
  obtain ⟨results, hmatch, hrun⟩ := bind_eq_ok.mp hrun
  obtain rfl := Except.ok.inj hrun
  exact promoted_sited hset hunit mentions_self FeatureSet.within_empty.mentions hmatch order

/-- What the loop over the calls of a thread keeps true. -/
structure CallLoop.Sited (set : MatchingRuleSet) (t : Address × ThreadFeatures)
    (calls : List (Address × CallFeatures)) (acc : CallLoop) : Prop where
  features : acc.features.Within fun a => ∃ c ∈ t.2.calls.entries, callMentions c a
  callMatches : CapaX.Sited set (ThreadSite t) acc.callMatches
  spanMatches : CapaX.Sited set (ThreadSite t) acc.spanMatcher.results
  window : acc.spanMatcher.Slides calls

theorem visitCalls_sited (hset : MatchingRuleSet.new rules = .ok set) {orders : ThreadOrders}
    {t : Address × ThreadFeatures} {calls : List (Address × CallFeatures)}
    (hcalls : calls <+: t.2.calls.entries) {acc : CallLoop}
    (hrun : visitCalls set orders globals calls = .ok acc) : acc.Sited set t calls := by
  induction calls using List.reverseRecOn generalizing acc with
  | nil =>
    obtain rfl := Except.ok.inj hrun
    exact ⟨FeatureSet.within_empty, .empty, .empty, .nil,
      fun _ _ ha => absurd ha FeatureSet.not_mem_locations_empty⟩
  | append_singleton calls c ih =>
    unfold visitCalls at hrun
    rw [List.foldlM_append] at hrun
    obtain ⟨before, hbefore, hrun⟩ := bind_eq_ok.mp hrun
    rw [List.foldlM_cons] at hrun
    obtain ⟨after, hvisit, hrun⟩ := bind_eq_ok.mp hrun
    obtain rfl := Except.ok.inj hrun
    obtain ⟨⟨S, results⟩, hfind, hvisit⟩ := bind_eq_ok.mp hvisit
    obtain ⟨m, hnext, hvisit⟩ := bind_eq_ok.mp hvisit
    obtain rfl := Except.ok.inj hvisit
    have hacc := ih ((List.prefix_append calls [c]).trans hcalls) hbefore
    have hc : c ∈ t.2.calls.entries :=
      hcalls.subset (List.mem_append_right _ List.mem_cons_self)
    obtain ⟨hS, hresults⟩ := findCallCapabilities_sited hset (ThreadSite.call hc) hfind
    obtain ⟨hsets, hcurrent, spans, hmatch, _, suppressed, _, hrecorded⟩ :=
      SpanOfCallsMatcher.next_ok hnext
    have hwindow : m.Slides (calls ++ [c]) := hacc.window.push hS hsets hcurrent
    have hself : spanMentions (calls ++ [c]) c.1 := by
      refine .inr ⟨c, ?_, mentions_self⟩
      rw [lastCalls_append]
      exact List.mem_append_right _ List.mem_cons_self
    have hspans := matchScopeResults_sited hset (ThreadSite.span hcalls) hself hwindow.within
      hmatch
    refine ⟨hacc.features.merge (hS.mono fun a ha => ⟨c, hc, ha⟩),
      hacc.callMatches.extend hresults, fun name res hres => ?_, hwindow⟩
    -- a span match is recorded after the older ones, or suppressed
    rw [hrecorded] at hres
    split at hres
    · exact hacc.spanMatches name res hres
    · next found hfound =>
      split at hres
      · exact hacc.spanMatches name res hres
      · obtain rfl := Option.some.inj hres
        exact hacc.spanMatches.append (hspans name found hfound)

theorem findThreadCapabilities_sited (hset : MatchingRuleSet.new rules = .ok set)
    {orders : ThreadOrders} {t : Address × ThreadFeatures} {c : ThreadCapabilities}
    (hrun : findThreadCapabilities set orders t.1 t.2 globals = .ok c) :
    c.features.Within (threadMentions t) ∧ Sited set (ThreadSite t) c.threadMatches ∧
      Sited set (ThreadSite t) c.spanMatches ∧ Sited set (ThreadSite t) c.callMatches := by
  obtain ⟨acc, hloop, hrun⟩ := bind_eq_ok.mp hrun
  obtain ⟨results, hmatch, hrun⟩ := bind_eq_ok.mp hrun
  obtain rfl := Except.ok.inj hrun
  have hacc := visitCalls_sited hset (List.prefix_refl _) hloop
  obtain ⟨hwithin, hsited⟩ := promoted_sited hset (ThreadSite.thread (t := t)) mentions_self
    hacc.features.mentions hmatch orders.promote
  exact ⟨hwithin, hsited, hacc.spanMatches, hacc.callMatches⟩

structure LowerMatches.Sited (set : MatchingRuleSet)
    (Unit : Scope → Address → (Address → Prop) → Prop) (lower : LowerMatches) : Prop where
  thread : CapaX.Sited set Unit lower.thread
  span : CapaX.Sited set Unit lower.span
  call : CapaX.Sited set Unit lower.call

theorem findProcessCapabilities_sited (hset : MatchingRuleSet.new rules = .ok set)
    {orders : ProcessOrders} {p : Address × ProcessFeatures} {c : ProcessCapabilities}
    (hrun : findProcessCapabilities set orders p.1 p.2 globals = .ok c) :
    Sited set (ProcessSite p) c.processMatches ∧ c.lower.Sited set (ProcessSite p) := by
  obtain ⟨acc, hloop, hrun⟩ := bind_eq_ok.mp hrun
  obtain ⟨results, hmatch, hrun⟩ := bind_eq_ok.mp hrun
  obtain rfl := Except.ok.inj hrun
  have hacc : acc.1.Within (fun a => ∃ t ∈ p.2.threads.entries, threadMentions t a) ∧
      acc.2.Sited set (ProcessSite p) := by
    refine foldlM_inv (P := fun acc : FeatureSet × LowerMatches => acc.1.Within _ ∧
      acc.2.Sited set (ProcessSite p)) hloop
      ⟨FeatureSet.within_empty, .empty, .empty, .empty⟩ ?_
    intro t ht acc acc' hacc hvisit
    obtain ⟨found, hfind, hvisit⟩ := bind_eq_ok.mp hvisit
    obtain rfl := Except.ok.inj hvisit
    obtain ⟨hwithin, hthread, hspan, hcall⟩ := findThreadCapabilities_sited hset hfind
    have hin : ∀ scope a L, ThreadSite t scope a L → ProcessSite p scope a L :=
      fun _ _ _ h => .thread ht h
    exact ⟨hacc.1.mergeOwned (hwithin.mono fun a ha => ⟨t, ht, ha⟩),
      hacc.2.thread.extend (hthread.mono hin), hacc.2.span.extend (hspan.mono hin),
      hacc.2.call.extend (hcall.mono hin)⟩
  exact ⟨matchScopeResults_sited hset ProcessSite.process mentions_self hacc.1.mentions hmatch,
    hacc.2⟩

omit [ComDatabase] [RegexBackend] in
theorem mem_lowerMatches {orders : DynamicOrders} {all : DynamicMatches} {name : String}
    {res : List (Address × MatchResult)} :
    (name, res) ∈ (orders.publishCall.reorder all.lower.call).entries ++
        (orders.publishSpan.reorder all.lower.span).entries ++
        (orders.publishThread.reorder all.lower.thread).entries ++
        (orders.publishProcess.reorder all.process).entries ↔
      all.lower.call.get? name = some res ∨ all.lower.span.get? name = some res ∨
        all.lower.thread.get? name = some res ∨ all.process.get? name = some res := by
  simp only [List.mem_append, IterOrder.mem_reorder, or_assoc]

theorem sited_of_dynamic (hset : MatchingRuleSet.new rules = .ok set)
    {freeze : DynamicFeatures} {orders : DynamicOrders} {caps : DynamicCapabilities}
    (hrun : findDynamicCapabilities set freeze orders = .ok caps) :
    Sited set freeze.Site caps.results := by
  obtain ⟨all, results, hloop, hmatch, hresults⟩ := findDynamicCapabilities_ok hrun
  rw [hresults]
  obtain ⟨hprocess, hlower⟩ : Sited set freeze.LowerSite all.process ∧
      all.lower.Sited set freeze.LowerSite := by
    refine foldlM_inv (P := fun acc : DynamicMatches => Sited set freeze.LowerSite acc.process ∧
      acc.lower.Sited set freeze.LowerSite) hloop ⟨.empty, .empty, .empty, .empty⟩ ?_
    intro p hp acc acc' hacc hvisit
    obtain ⟨found, hfind, hvisit⟩ := bind_eq_ok.mp hvisit
    obtain rfl := Except.ok.inj hvisit
    obtain ⟨hprocess, hlower⟩ := findProcessCapabilities_sited hset hfind
    have hin : ∀ scope a L, ProcessSite p scope a L → freeze.LowerSite scope a L :=
      fun _ _ _ h => ⟨p, hp, h⟩
    exact ⟨hacc.1.extend (hprocess.mono hin), hacc.2.thread.extend (hlower.thread.mono hin),
      hacc.2.span.extend (hlower.span.mono hin), hacc.2.call.extend (hlower.call.mono hin)⟩
  have hpublished : (processAndLowerFeatures set orders all).Within freeze.fileMentions := by
    refine within_publishMatches fun e he r hr => ?_
    obtain ⟨name, res⟩ := e
    have hsite : ∀ {results : MatchResults}, Sited set freeze.LowerSite results →
        results.get? name = some res → freeze.fileMentions r.1 := by
      intro results hsited hres
      obtain ⟨_, scope, L, _, _, hsite, _⟩ := hsited name res hres r hr
      exact mentions_below ⟨scope, L, hsite⟩
    obtain hres | hres | hres | hres := mem_lowerMatches.mp he
    · exact hsite hlower.call hres
    · exact hsite hlower.span hres
    · exact hsite hlower.thread hres
    · exact hsite hprocess hres
  have hfiles := matchScopeResults_sited hset DynamicFeatures.Site.file mentions_self
    ((FeatureSet.within_seedFile mentions_feature mentions_noAddress).merge hpublished) hmatch
  have hin : ∀ scope a L, freeze.LowerSite scope a L → freeze.Site scope a L :=
    fun _ _ _ h => .lower h
  exact ((((Sited.empty.extend (hlower.call.mono hin)).extend (hlower.span.mono hin)).extend
    (hlower.thread.mono hin)).extend (hprocess.mono hin)).extend hfiles

/-- A match of a run is at a unit of the sample, of a scope its rule has, and its evidence points
    into that unit; that of a span of calls into its window. -/
theorem findDynamicCapabilities_sited (hset : MatchingRuleSet.new rules = .ok set)
    (freeze : DynamicFeatures) (orders : DynamicOrders) (caps : DynamicCapabilities)
    (hrun : findDynamicCapabilities set freeze orders = .ok caps) {name : String}
    {res : List (Address × MatchResult)} (hres : caps.results.get? name = some res) :
    ∀ r ∈ res, ∃ rule scope L, set.get name = some rule ∧ rule.scopes.contains scope = true ∧
      freeze.Site scope r.1 L ∧ ∀ t ∈ r.2.nodes, ∀ a ∈ t.locations, L a := by
  intro r hr
  obtain ⟨rule, scope, L, hget, hscope, hsite, hwithin, _⟩ :=
    sited_of_dynamic hset hrun name res hres r hr
  exact ⟨rule, scope, L, hget, hscope, hsite, hwithin⟩

end

theorem findDynamicCapabilities_sited_openThenWrite :
    ∃ set caps, @MatchingRuleSet.new .empty openThenWrite = .ok set ∧
      @findDynamicCapabilities .empty set writingProcess .insertion = .ok caps ∧
      ∃ res, caps.results.get? "open then write" = some res ∧ res ≠ [] ∧ ∀ r ∈ res,
        ∃ rule scope L, set.get "open then write" = some rule ∧
          rule.scopes.contains scope = true ∧ writingProcess.Site scope r.1 L ∧
          ∀ t ∈ r.2.nodes, ∀ a ∈ t.locations, L a := by
  refine ⟨_, _, rfl, rfl, _, rfl, by simp, ?_⟩
  exact @findDynamicCapabilities_sited .empty .empty openThenWrite _ rfl writingProcess .insertion
    _ rfl "open then write" _ rfl

end CapaX
