import CapaX.ResultDocument.Ambiguity
import CapaX.ResultDocument.DynamicSites

/-
  The result document of a dynamic run. A match on a span of calls that goes on is not recorded
  again, so a match feature of a span may stand at a call where its rule has no recorded match, but
  has one at an earlier call of the thread (`Covered`). That is where `mostRecentInThread` looks:
  `buildDynamicDocument_iff` says that no leaf is left without a match for it, and when the
  document can be built at all.
-/

namespace CapaX

open Collections Control Graphs Relation

/-! ## Covered matches -/

/-- A match of the name is recorded at the address, or at an earlier call of its thread. -/
inductive Covered (results : MatchResults) (name : String) : Address → Prop
  | here {a : Address} (h : Recorded results name a) : Covered results name a
  | before {ppid pid tid : UInt32} {id id' : UInt64} (hle : id' ≤ id)
      (h : Recorded results name (.call ppid pid tid id')) :
      Covered results name (.call ppid pid tid id)

/-- What covers a call covers the later calls of the thread. -/
theorem Covered.later {results : MatchResults} {name : String} {ppid pid tid : UInt32}
    {id id' : UInt64} (h : Covered results name (.call ppid pid tid id')) (hle : id' ≤ id) :
    Covered results name (.call ppid pid tid id) := by
  cases h with
  | here h => exact .before hle h
  | before hle' h => exact .before (UInt64.le_trans hle' hle) h

/-- Nothing recorded is dropped. -/
def Grows (old new : MatchResults) : Prop :=
  ∀ name res, old.get? name = some res → ∃ more, new.get? name = some (res ++ more)

section

variable {old new : MatchResults} {rec : String → Address → Prop}

theorem Grows.recorded (h : Grows old new) {name : String} {a : Address}
    (hr : Recorded old name a) : Recorded new name a := by
  obtain ⟨res, hres, r, hr, ha⟩ := hr
  obtain ⟨more, hmore⟩ := h name res hres
  exact ⟨_, hmore, r, List.mem_append_left _ hr, ha⟩

theorem Grows.held (h : Grows old new) (hheld : Held rec new) : Held rec old := by
  intro name res hres r hr
  obtain ⟨more, hmore⟩ := h name res hres
  exact hheld name _ hmore r (List.mem_append_left _ hr)

end

/-! ## Backed sets -/

section

variable {set : MatchingRuleSet} {rec : String → Address → Prop} {fs other : FeatureSet}

theorem Backed.merge (h : Backed set rec fs) (ho : Backed set rec other) :
    Backed set rec (fs.merge other) := by
  rw [FeatureSet.merge_eq_mergeOwned]
  exact h.mergeOwned ho

/-- What a call leaves behind stays backed. -/
theorem Backed.removeOverflowing (h : Backed set rec fs) (hl : fs.Located) (S : FeatureSet) :
    Backed set rec (CapaX.removeOverflowing fs S) := by
  have hloc : (CapaX.removeOverflowing fs S).Located := hl.removeOverflowing S
  refine ⟨fun v hv => ?_, fun v a ha => ?_⟩
  · obtain ⟨locs, hget⟩ := Option.isSome_iff_exists.mp hv
    obtain ⟨a, ha⟩ := hloc _ _ hget
    exact ⟨a, FeatureSet.mem_locations_iff.mpr ⟨locs, hget, ha⟩⟩
  · exact h.recorded v a (mem_locations_removeOverflowing.mp ha).1

theorem Backed.overflowed {m : SpanOfCallsMatcher} (h : Backed set rec m.currentFeatures)
    (hl : m.currentFeatures.Located) :
    Backed set rec m.overflowed.2 ∧ m.overflowed.2.Located := by
  unfold SpanOfCallsMatcher.overflowed
  split
  · split
    · exact ⟨h, hl⟩
    · exact ⟨h.removeOverflowing hl _, hl.removeOverflowing _⟩
  · exact ⟨h, hl⟩

end

/-! ## The dynamic driver -/

/-- No feature of the sample is a match feature. -/
structure DynamicFeatures.NoMatches (freeze : DynamicFeatures) : Prop where
  globals : ∀ g ∈ freeze.globalFeatures, ∀ v, g ≠ .matchedRule v
  file : NoMatch freeze.fileFeatures
  process : ∀ p ∈ freeze.processes.entries, NoMatch p.2.features
  thread : ∀ p ∈ freeze.processes.entries, ∀ t ∈ p.2.threads.entries, NoMatch t.2.features
  call : ∀ p ∈ freeze.processes.entries, ∀ t ∈ p.2.threads.entries, ∀ c ∈ t.2.calls.entries,
    NoMatch c.2.features

/-- The calls of a thread are at call addresses with the numbers of the thread. -/
def DynamicFeatures.CallsNumbered (freeze : DynamicFeatures) : Prop :=
  ∀ p ∈ freeze.processes.entries, ∀ t ∈ p.2.threads.entries, ∃ ppid pid tid,
    ∀ c ∈ t.2.calls.entries, ∃ id, c.1 = .call ppid pid tid id

/-- What counts as recorded at a call counts at the later calls of the thread. -/
def Carries (rec : String → Address → Prop) (calls : List (Address × CallFeatures)) : Prop :=
  calls.Pairwise fun c d => ∀ name, rec name c.1 → rec name d.1

section

variable [ComDatabase] [RegexBackend] {rules : List Rule} {set : MatchingRuleSet}
  {rec : String → Address → Prop} {globals : List Feature}

theorem findCallCapabilities_traced (hset : MatchingRuleSet.new rules = .ok set)
    (hglobals : ∀ g ∈ globals, ∀ v, g ≠ .matchedRule v) {order : IterOrder} {addr : Address}
    {call : CallFeatures} (hown : NoMatch call.features) {out : FeatureSet × MatchResults}
    (hrun : findCallCapabilities set order addr call globals = .ok out)
    (hheld : Held rec out.2) :
    Backed set rec out.1 ∧ out.1.Located ∧ Traced set rec out.2 := by
  obtain ⟨results, hmatch, hrun⟩ := bind_eq_ok.mp hrun
  obtain rfl := Except.ok.inj hrun
  have hb : Backed set rec (seed ∅ call.features globals) := Backed.empty.seed hown hglobals
  exact ⟨hb.promoteMatches hheld, (FeatureSet.Located.empty.seed _ _).promoteMatches _ _ _,
    matchScopeResults_traced hset hb hmatch hheld⟩

/-- What the loop over the calls of a thread keeps true of the calls it has seen. A match that may
    be suppressed at the next call is recorded at one of them. -/
structure CallLoop.Traced (set : MatchingRuleSet) (rec : String → Address → Prop)
    (calls : List (Address × CallFeatures)) (acc : CallLoop) : Prop where
  features : Backed set rec acc.features
  callMatches : CapaX.Traced set rec acc.callMatches
  spanMatches : CapaX.Traced set rec acc.spanMatcher.results
  window : Backed set rec acc.spanMatcher.currentFeatures
  located : acc.spanMatcher.currentFeatures.Located
  last : ∀ name ∈ acc.spanMatcher.lastSpanMatches, ∃ c ∈ calls,
    Recorded acc.spanMatcher.results name c.1

/-- One call: the spans it records are traced, and what it suppresses was recorded before. -/
theorem SpanOfCallsMatcher.next_traced (hset : MatchingRuleSet.new rules = .ok set)
    {encountered record : IterOrder} {m m' : SpanOfCallsMatcher} {c : Address × CallFeatures}
    {calls : List (Address × CallFeatures)} {S : FeatureSet}
    (hnext : m.next set encountered record c.1 S = .ok m')
    (hlater : ∀ d ∈ calls, ∀ name, rec name d.1 → rec name c.1)
    (hheld : Held rec m'.results) :
    Held rec m.results ∧ (Backed set rec S → S.Located → Backed set rec m.currentFeatures →
      m.currentFeatures.Located → CapaX.Traced set rec m.results →
      (∀ name ∈ m.lastSpanMatches, ∃ d ∈ calls, Recorded m.results name d.1) →
        CapaX.Traced set rec m'.results ∧ Backed set rec m'.currentFeatures ∧
          m'.currentFeatures.Located ∧
          ∀ name ∈ m'.lastSpanMatches, ∃ d ∈ calls ++ [c], Recorded m'.results name d.1) := by
  obtain ⟨_, hcurrent, spans, hmatch, hlast, suppressed, hsup, hrecorded⟩ :=
    SpanOfCallsMatcher.next_ok hnext
  have hgrows : Grows m.results m'.results := by
    intro name res hres
    rw [hrecorded]
    split
    · exact ⟨[], by rw [hres, List.append_nil]⟩
    · next found _ =>
      split
      · exact ⟨[], by rw [hres, List.append_nil]⟩
      · exact ⟨found, by rw [hres]; rfl⟩
  have hbefore := hgrows.held hheld
  refine ⟨hbefore, fun hS hSl hwindow hlocated htraced hlastBefore => ?_⟩
  obtain ⟨hover, hoverl⟩ := hwindow.overflowed hlocated
  have hcur : Backed set rec m'.currentFeatures := hcurrent ▸ hover.merge hS
  -- a span match is recorded at this call, or it was at an earlier one
  have hspot : ∀ name found, spans.get? name = some found →
      (name ∉ suppressed ∧ m'.results.get? name =
        some ((m.results.get? name).getD [] ++ found)) ∨
      (name ∈ suppressed ∧ ∃ d ∈ calls, Recorded m.results name d.1) := by
    intro name found hfound
    have hnew := hrecorded name
    rw [hfound] at hnew
    dsimp only at hnew
    by_cases hs : name ∈ suppressed
    · exact .inr ⟨hs, hlastBefore name ((hsup name).mp hs).1⟩
    · rw [if_neg hs] at hnew
      exact .inl ⟨hs, hnew⟩
  have hspans : Held rec spans := by
    intro name found hfound r hr
    obtain ⟨_, hat⟩ := matchScopeResults_addr hset hmatch hfound
    obtain ⟨_, hnew⟩ | ⟨_, d, hd, res, hres, r', hr', ha⟩ := hspot name found hfound
    · exact hheld name _ hnew r (List.mem_append_right _ hr)
    · rw [hat r hr]
      refine hlater d hd name ?_
      rw [← ha]
      exact hbefore name res hres r' hr'
  have hspansTraced := matchScopeResults_traced hset hcur hmatch hspans
  refine ⟨fun name res hres => ?_, hcur, hcurrent ▸ hoverl.merge hSl, fun name hname => ?_⟩
  · rw [hrecorded] at hres
    split at hres
    · exact htraced name res hres
    · next found hfound =>
      split at hres
      · exact htraced name res hres
      · obtain rfl := Option.some.inj hres
        have hboth : CapaX.Traced set rec (extendMatches .insertion m.results spans) :=
          htraced.extend hspansTraced
        refine hboth name _ ?_
        rw [get?_extendMatches, hfound]
  · obtain ⟨found, hfound⟩ := Option.isSome_iff_exists.mp ((hlast name).mp hname)
    obtain ⟨hne, hat⟩ := matchScopeResults_addr hset hmatch hfound
    obtain ⟨_, hnew⟩ | ⟨_, d, hd, hrec⟩ := hspot name found hfound
    · obtain ⟨r, hr⟩ := List.exists_mem_of_ne_nil found hne
      exact ⟨c, List.mem_append_right _ List.mem_cons_self, _, hnew, r,
        List.mem_append_right _ hr, hat r hr⟩
    · exact ⟨d, List.mem_append_left _ hd, hgrows.recorded hrec⟩

theorem visitCalls_traced (hset : MatchingRuleSet.new rules = .ok set)
    (hglobals : ∀ g ∈ globals, ∀ v, g ≠ .matchedRule v) {orders : ThreadOrders}
    {calls : List (Address × CallFeatures)} (hown : ∀ c ∈ calls, NoMatch c.2.features)
    (hcarries : Carries rec calls) {acc : CallLoop}
    (hrun : visitCalls set orders globals calls = .ok acc)
    (hcall : Held rec acc.callMatches) (hspan : Held rec acc.spanMatcher.results) :
    acc.Traced set rec calls := by
  induction calls using List.reverseRecOn generalizing acc with
  | nil =>
    obtain rfl := Except.ok.inj hrun
    exact ⟨.empty, .empty, .empty, .empty, .empty, fun name h => absurd h (OrdSet.not_mem_empty _)⟩
  | append_singleton calls c ih =>
    obtain ⟨hbefore, _, hlater⟩ := List.pairwise_append.mp hcarries
    unfold visitCalls at hrun
    rw [List.foldlM_append] at hrun
    obtain ⟨before, hloop, hrun⟩ := bind_eq_ok.mp hrun
    rw [List.foldlM_cons] at hrun
    obtain ⟨after, hvisit, hrun⟩ := bind_eq_ok.mp hrun
    obtain rfl := Except.ok.inj hrun
    obtain ⟨⟨S, results⟩, hfind, hvisit⟩ := bind_eq_ok.mp hvisit
    obtain ⟨m, hnext, hvisit⟩ := bind_eq_ok.mp hvisit
    obtain rfl := Except.ok.inj hvisit
    obtain ⟨hcallBefore, hcallNow⟩ := hcall.of_extend
    obtain ⟨hS, hSl, hresults⟩ := findCallCapabilities_traced hset hglobals
      (hown c (List.mem_append_right _ List.mem_cons_self)) hfind hcallNow
    obtain ⟨hspanBefore, hmatcher⟩ := SpanOfCallsMatcher.next_traced hset hnext
      (fun d hd => hlater d hd c List.mem_cons_self) hspan
    have hacc := ih (fun d hd => hown d (List.mem_append_left _ hd)) hbefore hloop hcallBefore
      hspanBefore
    obtain ⟨hspans, hwindow, hlocated, hlast⟩ :=
      hmatcher hS hSl hacc.window hacc.located hacc.spanMatches hacc.last
    exact ⟨hacc.features.merge hS, hacc.callMatches.extend hresults, hspans, hwindow, hlocated,
      hlast⟩

theorem findThreadCapabilities_traced (hset : MatchingRuleSet.new rules = .ok set)
    (hglobals : ∀ g ∈ globals, ∀ v, g ≠ .matchedRule v) {orders : ThreadOrders} {addr : Address}
    {thread : ThreadFeatures} (hown : NoMatch thread.features)
    (hcalls : ∀ c ∈ thread.calls.entries, NoMatch c.2.features)
    (hcarries : Carries rec thread.calls.entries) {c : ThreadCapabilities}
    (hrun : findThreadCapabilities set orders addr thread globals = .ok c)
    (ht : Held rec c.threadMatches) (hs : Held rec c.spanMatches) (hc : Held rec c.callMatches) :
    Backed set rec c.features ∧ Traced set rec c.threadMatches ∧ Traced set rec c.spanMatches ∧
      Traced set rec c.callMatches := by
  obtain ⟨acc, hloop, hrun⟩ := bind_eq_ok.mp hrun
  obtain ⟨results, hmatch, hrun⟩ := bind_eq_ok.mp hrun
  obtain rfl := Except.ok.inj hrun
  have hacc := visitCalls_traced hset hglobals hcalls hcarries hloop hc hs
  have hb : Backed set rec (seed acc.features thread.features globals) :=
    hacc.features.seed hown hglobals
  exact ⟨hb.promoteMatches ht, matchScopeResults_traced hset hb hmatch ht, hacc.spanMatches,
    hacc.callMatches⟩

/-- Everything found below the processes counts as recorded. -/
structure LowerMatches.Held (rec : String → Address → Prop) (lower : LowerMatches) : Prop where
  thread : CapaX.Held rec lower.thread
  span : CapaX.Held rec lower.span
  call : CapaX.Held rec lower.call

structure LowerMatches.Traced (set : MatchingRuleSet) (rec : String → Address → Prop)
    (lower : LowerMatches) : Prop where
  thread : CapaX.Traced set rec lower.thread
  span : CapaX.Traced set rec lower.span
  call : CapaX.Traced set rec lower.call

theorem findProcessCapabilities_traced (hset : MatchingRuleSet.new rules = .ok set)
    (hglobals : ∀ g ∈ globals, ∀ v, g ≠ .matchedRule v) {orders : ProcessOrders} {addr : Address}
    {process : ProcessFeatures} (hown : NoMatch process.features)
    (hthreads : ∀ t ∈ process.threads.entries, NoMatch t.2.features)
    (hcalls : ∀ t ∈ process.threads.entries, ∀ c ∈ t.2.calls.entries, NoMatch c.2.features)
    (hcarries : ∀ t ∈ process.threads.entries, Carries rec t.2.calls.entries)
    {c : ProcessCapabilities}
    (hrun : findProcessCapabilities set orders addr process globals = .ok c)
    (hp : Held rec c.processMatches) (hl : c.lower.Held rec) :
    Traced set rec c.processMatches ∧ c.lower.Traced set rec := by
  obtain ⟨acc, hloop, hrun⟩ := bind_eq_ok.mp hrun
  obtain ⟨results, hmatch, hrun⟩ := bind_eq_ok.mp hrun
  obtain rfl := Except.ok.inj hrun
  have hturn : Backed set rec acc.1 ∧ acc.2.Traced set rec := by
    refine (foldlM_within
      (P := fun acc : FeatureSet × LowerMatches => Backed set rec acc.1 ∧ acc.2.Traced set rec)
      (Q := fun acc => acc.2.Held rec) hloop ?_ ?_ hl).2 ⟨.empty, .empty, .empty, .empty⟩
    · intro t _ acc acc' hvisit hacc'
      obtain ⟨found, _, hvisit⟩ := bind_eq_ok.mp hvisit
      obtain rfl := Except.ok.inj hvisit
      exact ⟨hacc'.thread.of_extend.1, hacc'.span.of_extend.1, hacc'.call.of_extend.1⟩
    · intro t ht acc acc' hvisit hacc' hacc
      obtain ⟨found, hfind, hvisit⟩ := bind_eq_ok.mp hvisit
      obtain rfl := Except.ok.inj hvisit
      obtain ⟨hb, hthread, hspan, hcall⟩ := findThreadCapabilities_traced hset hglobals
        (hthreads t ht) (hcalls t ht) (hcarries t ht) hfind hacc'.thread.of_extend.2
        hacc'.span.of_extend.2 hacc'.call.of_extend.2
      exact ⟨hacc.1.mergeOwned hb, hacc.2.thread.extend hthread, hacc.2.span.extend hspan,
        hacc.2.call.extend hcall⟩
  exact ⟨matchScopeResults_traced hset (hturn.1.seed hown hglobals) hmatch hp, hturn.2⟩

omit [ComDatabase] in
/-- The file is handed a backed set. -/
theorem dynamicFileInput_backed {freeze : DynamicFeatures} (hfree : freeze.NoMatches)
    {orders : DynamicOrders} {all : DynamicMatches} (hprocess : Held rec all.process)
    (hlower : all.lower.Held rec) (htraced : Traced set rec all.process)
    (hlowerTraced : all.lower.Traced set rec) :
    Backed set rec ((seedFile freeze.fileFeatures freeze.globalFeatures).merge
      (processAndLowerFeatures set orders all)) := by
  have hseed : ∀ v, ¬ (seedFile freeze.fileFeatures freeze.globalFeatures).Has v := by
    intro v hv
    obtain ⟨e, he, hev⟩ | hg := has_seedFile.mp hv
    · exact hfree.file e he v hev
    · exact hfree.globals _ hg v rfl
  have hentry : ∀ {name : String} {res : List (Address × MatchResult)},
      all.lower.call.get? name = some res ∨ all.lower.span.get? name = some res ∨
        all.lower.thread.get? name = some res ∨ all.process.get? name = some res →
          res ≠ [] ∧ ∀ r ∈ res, rec name r.1 := by
    intro name res h
    obtain hres | hres | hres | hres := h
    · exact ⟨(hlowerTraced.call name res hres).1, hlower.call name res hres⟩
    · exact ⟨(hlowerTraced.span name res hres).1, hlower.span name res hres⟩
    · exact ⟨(hlowerTraced.thread name res hres).1, hlower.thread name res hres⟩
    · exact ⟨(htraced name res hres).1, hprocess name res hres⟩
  refine ⟨fun v hv => ?_, fun v a ha => ?_⟩
  · rw [FeatureSet.has_merge, or_iff_right (hseed v), processAndLowerFeatures,
      has_publishMatches] at hv
    obtain ⟨name, res, rule, he, hget, hp⟩ := hv
    obtain ⟨r, hr⟩ := List.exists_mem_of_ne_nil res (hentry (mem_lowerMatches.mp he)).1
    refine ⟨r.1, FeatureSet.mem_locations_merge.mpr (.inr ?_)⟩
    exact mem_locations_publishMatches.mpr ⟨name, res, rule, he, hget, hp, r, hr, rfl⟩
  · obtain ha | ha := FeatureSet.mem_locations_merge.mp ha
    · obtain ⟨locs, hget, _⟩ := FeatureSet.mem_locations_iff.mp ha
      exact absurd (Option.isSome_iff_exists.mpr ⟨locs, hget⟩) (hseed v)
    · obtain ⟨name, res, rule, he, hget, hp, r, hr, rfl⟩ := mem_locations_publishMatches.mp ha
      exact ⟨name, rule, hget, hp, (hentry (mem_lowerMatches.mp he)).2 r hr⟩

omit [ComDatabase] [RegexBackend] in
/-- In a thread whose calls are numbered, a later call has a higher id. -/
theorem carries_covered {results : MatchResults} {t : ThreadFeatures} {ppid pid tid : UInt32}
    (h : ∀ c ∈ t.calls.entries, ∃ id, c.1 = .call ppid pid tid id) :
    Carries (Covered results) t.calls.entries := by
  refine t.calls.sorted.imp_of_mem ?_
  intro c d hc hd hlt name hcov
  obtain ⟨id, hcid⟩ := h c hc
  obtain ⟨id', hdid⟩ := h d hd
  rw [hcid] at hcov hlt
  rw [hdid] at hlt ⊢
  refine hcov.later ?_
  change Address.sortKey _ < Address.sortKey _ at hlt
  simp only [Address.sortKey, Address.sortKeyOf, Prod.Lex.toLex_lt_toLex, lt_self_iff_false,
    true_and, false_or] at hlt
  exact UInt64.le_iff_toNat_le.mpr (Nat.le_of_lt hlt)

/-- Whatever a dynamic run records was evaluated on features whose matches are covered. -/
theorem findDynamicCapabilities_traced (hset : MatchingRuleSet.new rules = .ok set)
    {freeze : DynamicFeatures} (hfree : freeze.NoMatches) (hnumbered : freeze.CallsNumbered)
    {orders : DynamicOrders} {caps : DynamicCapabilities}
    (hrun : findDynamicCapabilities set freeze orders = .ok caps) :
    Traced set (Covered caps.results) caps.results := by
  have hself : Held (Covered caps.results) caps.results :=
    fun name res hres r hr => .here ⟨res, hres, r, hr, rfl⟩
  obtain ⟨all, results, hloop, hmatch, hresults⟩ := findDynamicCapabilities_ok hrun
  rw [hresults] at hself ⊢
  obtain ⟨hbelow, hfileHeld⟩ := hself.of_extend
  obtain ⟨hbelow, hprocess⟩ := hbelow.of_extend
  obtain ⟨hbelow, hthread⟩ := hbelow.of_extend
  obtain ⟨hbelow, hspan⟩ := hbelow.of_extend
  obtain ⟨_, hcall⟩ := hbelow.of_extend
  have hlower : all.lower.Held _ := ⟨hthread, hspan, hcall⟩
  generalize hrec : Covered _ = rec at hfileHeld hprocess hlower ⊢
  have hcarries : ∀ p ∈ freeze.processes.entries, ∀ t ∈ p.2.threads.entries,
      Carries rec t.2.calls.entries := by
    intro p hp t ht
    obtain ⟨ppid, pid, tid, hids⟩ := hnumbered p hp t ht
    exact hrec ▸ carries_covered hids
  obtain ⟨hprocessTraced, hlowerTraced⟩ : Traced set rec all.process ∧
      all.lower.Traced set rec := by
    refine (foldlM_within
      (P := fun acc : DynamicMatches => Traced set rec acc.process ∧ acc.lower.Traced set rec)
      (Q := fun acc => Held rec acc.process ∧ acc.lower.Held rec) hloop ?_ ?_
      ⟨hprocess, hlower⟩).2 ⟨.empty, .empty, .empty, .empty⟩
    · intro p _ acc acc' hvisit hacc'
      obtain ⟨found, _, hvisit⟩ := bind_eq_ok.mp hvisit
      obtain rfl := Except.ok.inj hvisit
      exact ⟨hacc'.1.of_extend.1, hacc'.2.thread.of_extend.1, hacc'.2.span.of_extend.1,
        hacc'.2.call.of_extend.1⟩
    · intro p hp acc acc' hvisit hacc' hacc
      obtain ⟨found, hfind, hvisit⟩ := bind_eq_ok.mp hvisit
      obtain rfl := Except.ok.inj hvisit
      obtain ⟨hp', hl'⟩ := findProcessCapabilities_traced hset hfree.globals (hfree.process p hp)
        (hfree.thread p hp) (hfree.call p hp) (hcarries p hp) hfind hacc'.1.of_extend.2
        ⟨hacc'.2.thread.of_extend.2, hacc'.2.span.of_extend.2, hacc'.2.call.of_extend.2⟩
      exact ⟨hacc.1.extend hp', hacc.2.thread.extend hl'.thread, hacc.2.span.extend hl'.span,
        hacc.2.call.extend hl'.call⟩
  have hfiles := matchScopeResults_traced hset
    (dynamicFileInput_backed hfree hprocess hlower hprocessTraced hlowerTraced) hmatch hfileHeld
  exact ((((Traced.empty.extend hlowerTraced.call).extend hlowerTraced.span).extend
    hlowerTraced.thread).extend hprocessTraced).extend hfiles

end

/-! ## Finding the match of a leaf -/

namespace ResultDocument

/-- A fold that keeps what it has. -/
theorem isSome_of_foldl {α : Type} {f : Option α → α → Option α}
    (hf : ∀ best e, (f best e).isSome = true) {l : List α} {best : Option α}
    (h : l ≠ [] ∨ best.isSome = true) : (l.foldl f best).isSome = true := by
  induction l generalizing best with
  | nil =>
    obtain hne | hsome := h
    · exact absurd rfl hne
    · exact hsome
  | cons e l ih => exact ih (.inr (hf best e))

theorem mostRecentInThread_isSome {ruleMatches : IndexMap Address MatchResult}
    {ppid pid tid : UInt32} {id id' : UInt64} (hle : id' ≤ id)
    (h : (ruleMatches.get? (.call ppid pid tid id')).isSome = true) :
    (mostRecentInThread ruleMatches ppid pid tid id).isSome = true := by
  obtain ⟨m, hm⟩ := Option.isSome_iff_exists.mp h
  obtain ⟨k, hmem, hk⟩ := IndexMap.mem_of_get? hm
  obtain rfl := eq_of_beq hk
  unfold mostRecentInThread
  rw [Option.isSome_map]
  apply isSome_of_foldl
  · intro best e
    split
    · rfl
    · split
      · rfl
      · rfl
  · refine .inl (List.ne_nil_of_mem (a := (id', m)) (List.mem_filterMap.mpr ⟨_, hmem, ?_⟩))
    simp [hle]

/-- A covered match is found where the document looks for it. -/
theorem matchAt_of_covered {results : MatchResults} {name : String} {a : Address}
    (h : Covered results name a) : (matchAt (ruleMatchIndex results name) a).isSome = true := by
  cases h with
  | here h => exact matchAt_of_recorded h
  | before hle h =>
    obtain ⟨res, hres, r, hr, ha⟩ := h
    unfold matchAt
    split
    · rfl
    · refine mostRecentInThread_isSome hle ?_
      unfold ruleMatchIndex
      rw [hres]
      exact IndexMap.get?_ofList_isSome hr (beq_iff_eq.mpr ha)

/-- Every successful match leaf that names a rule finds a match of it for each location. -/
def LeavesMatched (set : MatchingRuleSet) (results : MatchResults) : Prop :=
  ∀ name t v, InTree results name t → matchLeaf t = some v → (set.get v).isSome = true →
    ∀ a ∈ t.locations, (matchAt (ruleMatchIndex results v) a).isSome = true

/-- The clashes do no harm: leaves with one find a match of the rule they name and do not come
    back to themselves. A count of a COM feature has no rendered form. -/
structure Harmless (set : MatchingRuleSet) (es : List Rule) (results : MatchResults) : Prop where
  found : ∀ name t v, InTree results name t → matchLeaf t = some v → Clashes es v →
    ∀ a ∈ t.locations, (matchAt (ruleMatchIndex results v) a).isSome = true
  ends : ∀ t v, Reached set results t → matchLeaf t = some v → Clashes es v →
    ¬ TransGen (Calls set results) t t
  counts : ∀ t, Reached set results t → ∀ kind name min max,
    t.node ≠ .range (.com kind name) min max

section

variable [ComDatabase] [RegexBackend] {rules es : List Rule} {set : MatchingRuleSet}

omit [ComDatabase] in
/-- A leaf without a clash that names a rule is at the matches of that rule. -/
theorem leavesMatched_of_harmless {results : MatchResults} {rec : String → Address → Prop}
    (ht : Traced (MatchingRuleSet.ofExpanded es) rec results)
    (hrec : ∀ name a, rec name a → (matchAt (ruleMatchIndex results name) a).isSome = true)
    (hu : Harmless (MatchingRuleSet.ofExpanded es) es results) :
    LeavesMatched (MatchingRuleSet.ofExpanded es) results := by
  intro name t v hin hv hsome a hloc
  by_cases hclash : Clashes es v
  · exact hu.found name t v hin hv hclash a hloc
  · exact hrec v a (recorded_of_leaf ht hin hv hsome hclash hloc)

/-- With distinct expanded names and calls numbered within their threads, the document of a dynamic
    run is built within some depth and every successful leaf that names a rule finds a match of it
    for each location, exactly when no clash does harm. -/
theorem buildDynamicDocument_iff (hset : MatchingRuleSet.new rules = .ok set)
    (hes : expandAndExtract rules = .ok es) (hn : (es.map (·.name)).Nodup)
    {freeze : DynamicFeatures} (hfree : freeze.NoMatches) (hnumbered : freeze.CallsNumbered)
    {orders : DynamicOrders} {caps : DynamicCapabilities}
    (hrun : findDynamicCapabilities set freeze orders = .ok caps) (order : IterOrder) :
    (∃ depth, ∀ depth' ≥ depth,
        Succeeds (buildResultDocument set caps.results order depth')) ∧
        LeavesMatched set caps.results ↔
      Harmless set es caps.results := by
  have ht := findDynamicCapabilities_traced hset hfree hnumbered hrun
  obtain ⟨ha, es0, hes0, rfl⟩ := MatchingRuleSet.new_ok hset
  obtain rfl : es0 = es := Except.ok.inj (hes0.symm.trans hes)
  rw [built_iff]
  constructor
  · intro ⟨hbuilt, hmatched⟩
    refine ⟨fun name t v hin hv hclash => ?_, fun t v hr _ _ hcycle => ?_, fun t hr kind n => ?_⟩
    · obtain ⟨⟨e, he, hname⟩, _⟩ := hclash
      exact hmatched name t v hin hv (hname ▸ indexByName_isSome he)
    · exact acyclic_of_acc (hbuilt t hr).1 hcycle
    · exact ((hbuilt t hr).2.renders kind n).2
  · intro hu
    have hmatched := leavesMatched_of_harmless ht (fun _ _ => matchAt_of_covered) hu
    have hends : ∀ t v, Reached (MatchingRuleSet.ofExpanded es0) caps.results t →
        matchLeaf t = some v → Entangled (MatchingRuleSet.ofExpanded es0) es0 v →
        ¬ TransGen (Calls (MatchingRuleSet.ofExpanded es0) caps.results) t t :=
      fun t v hr hv h => hu.ends t v hr hv (clashes_of_entangled hn h)
    refine ⟨fun t hr => ⟨acc_of_ends ha hes ht hends hr, ?_⟩, hmatched⟩
    obtain ⟨name, hin⟩ := inTree_of_reached hr
    exact sound_of_matched ht hin (hmatched name t · hin) (hu.counts t hr)

end

/-- `seen` asks for `opened`, and `written` for `seen` in a span that writes. At the call that
    writes, `seen` is recorded again, and `opened` is not. -/
def openedThenWritten : List Rule :=
  [.minimal "opened" none ⟨none, some .spanOfCalls⟩ ⟨.leaf (.api "CreateFile"), none⟩,
    .minimal "seen" none ⟨none, some .spanOfCalls⟩ ⟨.leaf (.matchedRule "opened"), none⟩,
    .minimal "written" none ⟨none, some .spanOfCalls⟩
      ⟨.and [⟨.leaf (.matchedRule "seen"), none⟩, ⟨.leaf (.api "WriteFile"), none⟩], none⟩]

theorem writingProcess_noMatches : writingProcess.NoMatches where
  globals := by simp [writingProcess]
  file := by simp [writingProcess, NoMatch]
  process p hp := by
    obtain rfl := List.mem_singleton.mp hp
    simp [NoMatch]
  thread p hp t ht := by
    obtain rfl := List.mem_singleton.mp hp
    obtain rfl := List.mem_singleton.mp ht
    simp [NoMatch, writingThread]
  call p hp t ht c hc := by
    obtain rfl := List.mem_singleton.mp hp
    obtain rfl := List.mem_singleton.mp ht
    obtain rfl | hc := List.mem_cons.mp hc
    · simp [NoMatch]
    · obtain rfl := List.mem_singleton.mp hc
      simp [NoMatch]

theorem writingProcess_callsNumbered : writingProcess.CallsNumbered := by
  intro p hp t ht
  obtain rfl := List.mem_singleton.mp hp
  obtain rfl := List.mem_singleton.mp ht
  refine ⟨0, 1, 1, fun c hc => ?_⟩
  obtain rfl | hc := List.mem_cons.mp hc
  · exact ⟨0, rfl⟩
  · obtain rfl := List.mem_singleton.mp hc
    exact ⟨1, rfl⟩

theorem buildDynamicDocument_iff_openedThenWritten :
    ∃ set es caps, @MatchingRuleSet.new .empty openedThenWritten = .ok set ∧
      @expandAndExtract .empty openedThenWritten = .ok es ∧
      @findDynamicCapabilities .empty set writingProcess .insertion = .ok caps ∧
      ((∃ depth, ∀ depth' ≥ depth,
          Succeeds (buildResultDocument set caps.results .insertion depth')) ∧
          LeavesMatched set caps.results ↔
        Harmless set es caps.results) := by
  refine ⟨_, _, _, rfl, rfl, rfl, ?_⟩
  exact @buildDynamicDocument_iff .empty .empty openedThenWritten _ _ rfl rfl (by decide)
    writingProcess writingProcess_noMatches writingProcess_callsNumbered .insertion _ rfl .insertion

/-- The leaf of `seen` at the second call finds the match of `opened` at the first. -/
example : ∃ set caps, @MatchingRuleSet.new .empty openedThenWritten = .ok set ∧
    @findDynamicCapabilities .empty set writingProcess .insertion = .ok caps ∧
    ((caps.results.get? "opened").getD []).map (·.1) = [.call 0 1 1 0] ∧
    (((caps.results.get? "seen").getD []).filter fun r => matchLeaf r.2 = some "opened" ∧
      Address.call 0 1 1 1 ∈ r.2.locations).map (·.1) = [.call 0 1 1 1] ∧
    (matchAt (ruleMatchIndex caps.results "opened") (.call 0 1 1 1)).isSome = true :=
  ⟨_, _, rfl, rfl, rfl, rfl, rfl⟩

end ResultDocument

end CapaX
