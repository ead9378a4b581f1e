import CapaX.Capabilities.Order
import CapaX.Capabilities.SpanOfCalls

/-
  What a dynamic rule sees of its subscopes. The leaf put in the place of a subscope is true at a
  unit when the value of the extracted rule is among the features the rules of the unit are
  matched on. Matches on calls, threads and processes get there (`SolelyNamed.thread`,
  `SolelyNamed.process`, `SolelyNamed.file`); the matches on spans get to the file only.

  `subscopeLeaf_iff`: the leaf is true exactly when the extracted rule matched inside the unit,
  but for a span of calls below a thread or a process, whose leaf is never true.
-/

namespace CapaX

open Collections Control

/-! ## What the rules of a unit are matched on -/

section

variable [RegexBackend] (set : MatchingRuleSet)

/-- The features the rules of a thread are matched on. -/
def threadInput (orders : ThreadOrders) (thread : ThreadFeatures) (globals : List Feature) :
    Except EngineError FeatureSet := do
  let acc ← visitCalls set orders globals thread.calls.entries
  return seed acc.features thread.features globals

/-- The features the rules of a process are matched on. -/
def processInput (orders : ProcessOrders) (process : ProcessFeatures) (globals : List Feature) :
    Except EngineError FeatureSet := do
  let (features, _) ← process.threads.entries.foldlM (visitThread set orders globals)
    (∅, ⟨∅, ∅, ∅⟩)
  return seed features process.features globals

/-- The features the rules of the file are matched on. -/
def fileInput (orders : DynamicOrders) (freeze : DynamicFeatures) :
    Except EngineError FeatureSet := do
  let all ← freeze.processes.entries.foldlM (visitProcess set orders freeze.globalFeatures)
    ⟨∅, ⟨∅, ∅, ∅⟩, []⟩
  return (seedFile freeze.fileFeatures freeze.globalFeatures).merge
    (processAndLowerFeatures set orders all)

/-- The match leaf is true on the features that matching the rules of the scope ends with. -/
def LeafTrue (scope : Scope) (features : Except EngineError FeatureSet) (addr : Address)
    (v : String) : Prop :=
  ∃ fs fs' results, features = .ok fs ∧ set.matchScope scope fs addr = .ok (fs', results) ∧
    leafBoolean fs' (.matchedRule v) = .ok true

/-! ## Where a rule matched -/

/-- A rule matched the call. -/
def CallMatched (orders : ThreadOrders) (globals : List Feature) (v : String)
    (c : Address × CallFeatures) : Prop :=
  ∃ fs results, findCallCapabilities set (orders.promoteCall c.1) c.1 c.2 globals =
    .ok (fs, results) ∧ (results.get? v).isSome = true

/-- A rule matched the span that ends with some call of the thread. -/
def SpanMatched (orders : ThreadOrders) (globals : List Feature) (v : String)
    (calls : List (Address × CallFeatures)) : Prop :=
  ∃ seen acc, seen <+: calls ∧ visitCalls set orders globals seen = .ok acc ∧
    v ∈ acc.spanMatcher.lastSpanMatches

/-- A rule matched at a unit of the kind inside the thread, or at the thread. -/
def MatchedInThread (orders : ThreadOrders) (globals : List Feature) (kind : Scope) (v : String)
    (t : Address × ThreadFeatures) : Prop :=
  match kind with
  | .call => ∃ c ∈ t.2.calls.entries, CallMatched set orders globals v c
  | .spanOfCalls => SpanMatched set orders globals v t.2.calls.entries
  | .thread => ∃ out, findThreadCapabilities set orders t.1 t.2 globals = .ok out ∧
      (out.threadMatches.get? v).isSome = true
  | _ => False

/-- A rule matched at a unit of the kind inside the process, or at the process. -/
def MatchedInProcess (orders : ProcessOrders) (globals : List Feature) (kind : Scope) (v : String)
    (p : Address × ProcessFeatures) : Prop :=
  match kind with
  | .process => ∃ out, findProcessCapabilities set orders p.1 p.2 globals = .ok out ∧
      (out.processMatches.get? v).isSome = true
  | kind => ∃ t ∈ p.2.threads.entries, MatchedInThread set (orders.thread t.1) globals kind v t

/-- A rule matched at a unit of the kind inside the file. -/
def MatchedInFile (orders : DynamicOrders) (freeze : DynamicFeatures) (kind : Scope)
    (v : String) : Prop :=
  ∃ p ∈ freeze.processes.entries,
    MatchedInProcess set (orders.process p.1) freeze.globalFeatures kind v p

end

/-! ## A value one rule is published under -/

/-- No feature of the sample is the match value. -/
structure Unmatched (v : String) (freeze : DynamicFeatures) : Prop where
  globals : .matchedRule v ∉ freeze.globalFeatures
  file : ∀ e ∈ freeze.fileFeatures, e.2 ≠ .matchedRule v
  process : ∀ p ∈ freeze.processes.entries, ∀ e ∈ p.2.features, e.2 ≠ .matchedRule v
  thread : ∀ p ∈ freeze.processes.entries, ∀ t ∈ p.2.threads.entries, ∀ e ∈ t.2.features,
    e.2 ≠ .matchedRule v
  call : ∀ p ∈ freeze.processes.entries, ∀ t ∈ p.2.threads.entries, ∀ c ∈ t.2.calls.entries,
    ∀ e ∈ c.2.features, e.2 ≠ .matchedRule v

/-- The rules of the list published under the value have it as their name and are of the kind. -/
def SolelyNamed (es : List Rule) (v : String) (kind : Scope) : Prop :=
  ∀ a ∈ es, v ∈ a.published → a.name = v ∧ a.scopes = .ofSubscope kind

section

variable [ComDatabase] [RegexBackend] {rules es : List Rule} {v : String} {kind : Scope}

theorem SolelyNamed.matchScope (hsole : SolelyNamed es v kind)
    (hes : expandAndExtract rules = .ok es) {scope : Scope} {fs fs' : FeatureSet} {addr : Address}
    {results : MatchResults}
    (h : (MatchingRuleSet.ofExpanded es).matchScope scope fs addr = .ok (fs', results)) :
    (fs'.Has v ↔ fs.Has v ∨ (results.get? v).isSome = true) ∧
      ((results.get? v).isSome = true → scope = kind ∧
        ∃ rule, (MatchingRuleSet.ofExpanded es).get v = some rule ∧ v ∈ rule.published) := by
  rw [MatchingRuleSet.matchScope_ofExpanded hes] at h
  have hmem : ∀ r ∈ (MatchingRuleSet.ofExpanded es).rulesForScope scope, r ∈ es := fun r hr =>
    (MatchingRuleSet.mem_rulesForScope_ofExpanded hr).1
  constructor
  · refine foldlM_inv (P := fun acc => acc.1.Has v ↔ fs.Has v ∨ (acc.2.get? v).isSome = true) h
      (by simp) ?_
    intro r hr acc acc' hacc hstep
    rcases matchRule_cases hstep with ⟨_, rfl⟩ | ⟨_, full, _, rfl⟩
    · exact hacc
    · have hname : v ∈ r.published ↔ (r.name == v) = true := by
        refine ⟨fun hv => beq_iff_eq.mpr (hsole r (hmem r hr) hv).1, fun hv => ?_⟩
        exact List.mem_cons.mpr (Or.inl (eq_of_beq hv).symm)
      have hget : (acc.2.upsert r.name fun o => o.getD [] ++ [(addr, full)]).get? v =
          if r.name == v then _ else acc.2.get? v := IndexMap.get?_upsert ..
      dsimp only
      rw [FeatureSet.has_publish, hacc, hname, hget]
      by_cases hv : (r.name == v) = true
      · simp [hv]
      · simp [hv]
  · intro hsome
    obtain ⟨r, hr, hname⟩ := matchRules_recorded h (IndexMap.get?_empty v)
      (fun hnone => by rw [hnone] at hsome; cases hsome)
    have hpub : v ∈ r.published := List.mem_cons.mpr (Or.inl hname.symm)
    obtain ⟨hre, hcontains, _⟩ := MatchingRuleSet.mem_rulesForScope_ofExpanded hr
    refine ⟨?_, r, ?_, hpub⟩
    · rw [(hsole r hre hpub).2] at hcontains
      exact Scopes.contains_ofSubscope.mp hcontains
    · obtain ⟨n, _, hget⟩ := List.mem_filterMap.mp hr
      obtain ⟨_, hn⟩ := indexByName_some hget
      rw [← hname, hn]
      exact hget

theorem SolelyNamed.matchScopeResults (hsole : SolelyNamed es v kind)
    (hes : expandAndExtract rules = .ok es) {scope : Scope} {fs : FeatureSet} {addr : Address}
    {results : MatchResults}
    (h : (MatchingRuleSet.ofExpanded es).matchScopeResults scope fs addr = .ok results) :
    ∃ fs', (MatchingRuleSet.ofExpanded es).matchScope scope fs addr = .ok (fs', results) ∧
      ((results.get? v).isSome = true → scope = kind ∧
        ∃ rule, (MatchingRuleSet.ofExpanded es).get v = some rule ∧ v ∈ rule.published) := by
  obtain ⟨⟨fs', results'⟩, hrun, h⟩ := bind_eq_ok.mp h
  obtain rfl := Except.ok.inj h
  exact ⟨fs', hrun, (hsole.matchScope hes hrun).2⟩

theorem SolelyNamed.promoteMatches (hsole : SolelyNamed es v kind)
    (hes : expandAndExtract rules = .ok es) {scope : Scope} {fs gs : FeatureSet} {addr : Address}
    {results : MatchResults} {order : IterOrder}
    (h : (MatchingRuleSet.ofExpanded es).matchScopeResults scope fs addr = .ok results) :
    (CapaX.promoteMatches (MatchingRuleSet.ofExpanded es) order gs results).Has v ↔
      gs.Has v ∨ (results.get? v).isSome = true := by
  obtain ⟨fs', hrun, hmatched⟩ := hsole.matchScopeResults hes h
  rw [has_promoteMatches]
  refine or_congr_right ⟨?_, fun hsome => ?_⟩
  · intro ⟨name, res, rule, hres, _, hget, hv⟩
    obtain ⟨hrule, hname⟩ := indexByName_some hget
    rw [← (hsole rule hrule hv).1, hname, hres]
    rfl
  · obtain ⟨_, rule, hget, hv⟩ := hmatched hsome
    obtain ⟨res, hres⟩ := Option.isSome_iff_exists.mp hsome
    rw [MatchingRuleSet.matchScope_ofExpanded hes] at hrun
    exact ⟨v, res, rule, hres, (matchRules_addr hrun hres).1, hget, hv⟩

/-! ### Calls and spans -/

omit [ComDatabase] [RegexBackend] in
/-- The own features of a unit and the globals do not bring a value that they are free of. -/
theorem has_seed_of_free {fs : FeatureSet} {features : List Located} {globals : List Feature}
    (hown : ∀ e ∈ features, e.2 ≠ .matchedRule v) (hglobals : .matchedRule v ∉ globals) :
    (seed fs features globals).Has v ↔ fs.Has v := by
  rw [has_seed]
  apply or_iff_left
  intro h
  obtain ⟨e, he, hev⟩ | hg := h
  · exact hown e he hev
  · exact hglobals hg

theorem SolelyNamed.call (hsole : SolelyNamed es v kind) (hes : expandAndExtract rules = .ok es)
    {order : IterOrder} {addr : Address} {call : CallFeatures} {globals : List Feature}
    {fs : FeatureSet} {results : MatchResults} (hglobals : .matchedRule v ∉ globals)
    (hcall : ∀ e ∈ call.features, e.2 ≠ .matchedRule v)
    (h : findCallCapabilities (MatchingRuleSet.ofExpanded es) order addr call globals =
      .ok (fs, results)) :
    (fs.Has v ↔ (results.get? v).isSome = true) ∧
      ((results.get? v).isSome = true → .call = kind) := by
  obtain ⟨results', hmatch, h⟩ := bind_eq_ok.mp h
  obtain ⟨rfl, rfl⟩ := Prod.mk.inj (Except.ok.inj h)
  obtain ⟨_, _, hmatched⟩ := hsole.matchScopeResults hes hmatch
  refine ⟨(hsole.promoteMatches hes hmatch).trans (or_iff_right ?_), fun hs => (hmatched hs).1⟩
  rw [has_seed_of_free hcall hglobals]
  exact FeatureSet.not_has_empty

omit [ComDatabase] in
/-- The span matcher has recorded a rule when the rule matched some span so far. -/
theorem spanMatched_iff {set : MatchingRuleSet} {orders : ThreadOrders} {globals : List Feature}
    {calls : List (Address × CallFeatures)} {acc : CallLoop}
    (h : visitCalls set orders globals calls = .ok acc) :
    ((acc.spanMatcher.results.get? v).isSome = true ↔ SpanMatched set orders globals v calls) ∧
      (v ∈ acc.spanMatcher.lastSpanMatches → SpanMatched set orders globals v calls) := by
  refine ⟨?_, fun hlast => ⟨calls, acc, List.prefix_refl _, h, hlast⟩⟩
  induction calls using List.reverseRecOn generalizing acc with
  | nil =>
    obtain rfl := Except.ok.inj h
    refine iff_of_false Bool.false_ne_true fun ⟨seen, acc, hseen, hacc, hlast⟩ => ?_
    obtain rfl := List.prefix_nil.mp hseen
    obtain rfl := Except.ok.inj hacc
    exact OrdSet.not_mem_empty v hlast
  | append_singleton calls c ih =>
    have hwhole := h
    unfold visitCalls at h
    rw [List.foldlM_append] at h
    obtain ⟨acc', hcalls, h⟩ := bind_eq_ok.mp h
    rw [List.foldlM_cons] at h
    obtain ⟨acc'', hvisit, h⟩ := bind_eq_ok.mp h
    obtain rfl := Except.ok.inj h
    obtain ⟨⟨S, results⟩, hc, hvisit⟩ := bind_eq_ok.mp hvisit
    obtain ⟨m, hnext, hvisit⟩ := bind_eq_ok.mp hvisit
    obtain rfl := Except.ok.inj hvisit
    obtain ⟨_, _, results', _, hlast, suppressed, hsup, hrec⟩ := SpanOfCallsMatcher.next_ok hnext
    have hmatched : SpanMatched set orders globals v (calls ++ [c]) ↔
        SpanMatched set orders globals v calls ∨ v ∈ m.lastSpanMatches := by
      constructor
      · intro ⟨seen, acc, hseen, hacc, hv⟩
        rcases List.prefix_concat_iff.mp hseen with rfl | hseen
        · rw [hwhole] at hacc
          obtain rfl := Except.ok.inj hacc
          exact Or.inr hv
        · exact Or.inl ⟨seen, acc, hseen, hacc, hv⟩
      · rintro (⟨seen, acc, hseen, hacc, hv⟩ | hv)
        · exact ⟨seen, acc, hseen.trans (List.prefix_append _ _), hacc, hv⟩
        · exact ⟨_, _, List.prefix_refl _, hwhole, hv⟩
    have hold : v ∈ acc'.spanMatcher.lastSpanMatches → SpanMatched set orders globals v calls :=
      fun hv => ⟨calls, acc', List.prefix_refl _, hcalls, hv⟩
    rw [hmatched, ← ih hcalls, hlast]
    dsimp only
    rw [hrec v]
    rw [← ih hcalls] at hold
    cases hres : results'.get? v with
    | none => simp
    | some res =>
      by_cases hs : v ∈ suppressed
      · simp [hs, hold ((hsup v).mp hs).1]
      · simp [hs]

/-- A match of the value is one of the kind, by a rule the rule set finds. -/
def Found (es : List Rule) (v : String) (kind scope : Scope) : Prop :=
  scope = kind ∧ ∃ rule, (MatchingRuleSet.ofExpanded es).get v = some rule ∧ v ∈ rule.published

theorem SolelyNamed.found_call (hsole : SolelyNamed es v kind)
    (hes : expandAndExtract rules = .ok es) {orders : ThreadOrders} {globals : List Feature}
    {c : Address × CallFeatures}
    (h : CallMatched (MatchingRuleSet.ofExpanded es) orders globals v c) :
    Found es v kind .call := by
  obtain ⟨fs, results, hfind, hsome⟩ := h
  obtain ⟨results', hmatch, hfind⟩ := bind_eq_ok.mp hfind
  obtain ⟨rfl, rfl⟩ := Prod.mk.inj (Except.ok.inj hfind)
  obtain ⟨_, _, hmatched⟩ := hsole.matchScopeResults hes hmatch
  exact hmatched hsome

theorem SolelyNamed.found_span (hsole : SolelyNamed es v kind)
    (hes : expandAndExtract rules = .ok es) {orders : ThreadOrders} {globals : List Feature}
    {calls : List (Address × CallFeatures)}
    (h : SpanMatched (MatchingRuleSet.ofExpanded es) orders globals v calls) :
    Found es v kind .spanOfCalls := by
  obtain ⟨seen, acc, _, hacc, hlast⟩ := h
  rcases List.eq_nil_or_concat' seen with rfl | ⟨seen, c, rfl⟩
  · obtain rfl := Except.ok.inj hacc
    exact absurd hlast (OrdSet.not_mem_empty v)
  · unfold visitCalls at hacc
    rw [List.foldlM_append] at hacc
    obtain ⟨acc', _, hacc⟩ := bind_eq_ok.mp hacc
    rw [List.foldlM_cons] at hacc
    obtain ⟨acc'', hvisit, hacc⟩ := bind_eq_ok.mp hacc
    obtain rfl := Except.ok.inj hacc
    obtain ⟨_, _, hvisit⟩ := bind_eq_ok.mp hvisit
    obtain ⟨m, hnext, hvisit⟩ := bind_eq_ok.mp hvisit
    obtain rfl := Except.ok.inj hvisit
    obtain ⟨_, _, results, hmatch, hl, _⟩ := SpanOfCallsMatcher.next_ok hnext
    obtain ⟨_, _, hmatched⟩ := hsole.matchScopeResults hes hmatch
    exact hmatched ((hl v).mp hlast)

/-! ### Threads, processes and the file -/

omit [ComDatabase] [RegexBackend] in
/-- A loop that joins results has some for the value when one of its items brings them. -/
theorem isSome_foldlM {ε α β : Type} {f : β → α → Except ε β} {l : List α} {b b' : β}
    (part : β → MatchResults) {Q : α → Prop} (hf : l.foldlM f b = .ok b')
    (hempty : part b = ∅)
    (hstep : ∀ a ∈ l, ∀ b b', f b a = .ok b' →
      (((part b').get? v).isSome = true ↔ ((part b).get? v).isSome = true ∨ Q a)) :
    ((part b').get? v).isSome = true ↔ ∃ a ∈ l, Q a := by
  apply (foldlM_exists (P := fun b => ((part b).get? v).isSome = true) hf hstep).trans
  rw [hempty]
  exact or_iff_right Bool.false_ne_true

theorem SolelyNamed.call_step (hsole : SolelyNamed es v kind) (hes : expandAndExtract rules = .ok es)
    {orders : ThreadOrders} {globals : List Feature} {c : Address × CallFeatures} {b b' : CallLoop}
    (hglobals : .matchedRule v ∉ globals) (hcall : ∀ e ∈ c.2.features, e.2 ≠ .matchedRule v)
    (h : visitCall (MatchingRuleSet.ofExpanded es) orders globals b c = .ok b') :
    (b'.features.Has v ↔ b.features.Has v ∨
        CallMatched (MatchingRuleSet.ofExpanded es) orders globals v c) ∧
      ((b'.callMatches.get? v).isSome = true ↔ (b.callMatches.get? v).isSome = true ∨
        CallMatched (MatchingRuleSet.ofExpanded es) orders globals v c) := by
  obtain ⟨⟨S, found⟩, hfind, h⟩ := bind_eq_ok.mp h
  obtain ⟨m, -, h⟩ := bind_eq_ok.mp h
  obtain rfl := Except.ok.inj h
  have hmatched : CallMatched (MatchingRuleSet.ofExpanded es) orders globals v c ↔
      (found.get? v).isSome = true := by
    constructor
    · intro hmatched
      obtain ⟨S', found', hf, hs⟩ := hmatched
      rw [hfind] at hf
      obtain ⟨rfl, rfl⟩ := Prod.mk.inj (Except.ok.inj hf)
      exact hs
    · exact fun hs => ⟨S, found, hfind, hs⟩
  constructor
  · rw [FeatureSet.has_merge, (hsole.call hes hglobals hcall hfind).1, hmatched]
  · rw [isSome_extendMatches, hmatched]

/-- What matching a thread tells of the value. -/
theorem SolelyNamed.thread (hsole : SolelyNamed es v kind) (hes : expandAndExtract rules = .ok es)
    {orders : ThreadOrders} {addr : Address} {thread : ThreadFeatures} {globals : List Feature}
    {out : ThreadCapabilities} (hglobals : .matchedRule v ∉ globals)
    (hown : ∀ e ∈ thread.features, e.2 ≠ .matchedRule v)
    (hcalls : ∀ c ∈ thread.calls.entries, ∀ e ∈ c.2.features, e.2 ≠ .matchedRule v)
    (h : findThreadCapabilities (MatchingRuleSet.ofExpanded es) orders addr thread globals =
      .ok out) :
    let calls := ∃ c ∈ thread.calls.entries,
      CallMatched (MatchingRuleSet.ofExpanded es) orders globals v c
    ∃ input, threadInput (MatchingRuleSet.ofExpanded es) orders thread globals = .ok input ∧
      (MatchingRuleSet.ofExpanded es).matchScopeResults .thread input addr =
        .ok out.threadMatches ∧
      (input.Has v ↔ calls) ∧
      (out.features.Has v ↔ calls ∨ (out.threadMatches.get? v).isSome = true) ∧
      ((out.callMatches.get? v).isSome = true ↔ calls) ∧
      ((out.spanMatches.get? v).isSome = true ↔
        SpanMatched (MatchingRuleSet.ofExpanded es) orders globals v thread.calls.entries) := by
  intro calls
  obtain ⟨acc, hacc, h⟩ := bind_eq_ok.mp h
  obtain ⟨results, hmatch, h⟩ := bind_eq_ok.mp h
  obtain rfl := Except.ok.inj h
  have hfeatures : acc.features.Has v ↔ calls := by
    refine (foldlM_exists (P := fun b => b.features.Has v) hacc
      fun c hc b b' hv => (hsole.call_step hes hglobals (hcalls c hc) hv).1).trans ?_
    exact or_iff_right FeatureSet.not_has_empty
  have hmatches : (acc.callMatches.get? v).isSome = true ↔ calls :=
    isSome_foldlM (·.callMatches) hacc rfl
      fun c hc b b' hv => (hsole.call_step hes hglobals (hcalls c hc) hv).2
  have hinput : (seed acc.features thread.features globals).Has v ↔ calls :=
    (has_seed_of_free hown hglobals).trans hfeatures
  refine ⟨_, by rw [threadInput, hacc]; rfl, hmatch, hinput, ?_, hmatches, (spanMatched_iff hacc).1⟩
  rw [hsole.promoteMatches hes hmatch, hinput]

theorem SolelyNamed.found_in_thread (hsole : SolelyNamed es v kind)
    (hes : expandAndExtract rules = .ok es) {orders : ThreadOrders} {globals : List Feature}
    {t : Address × ThreadFeatures} {k : Scope}
    (h : MatchedInThread (MatchingRuleSet.ofExpanded es) orders globals k v t) :
    Found es v kind k := by
  unfold MatchedInThread at h
  split at h
  · obtain ⟨c, _, hc⟩ := h
    exact hsole.found_call hes hc
  · exact hsole.found_span hes h
  · obtain ⟨out, hout, hsome⟩ := h
    obtain ⟨acc, _, hout⟩ := bind_eq_ok.mp hout
    obtain ⟨results, hmatch, hout⟩ := bind_eq_ok.mp hout
    obtain rfl := Except.ok.inj hout
    obtain ⟨_, _, hmatched⟩ := hsole.matchScopeResults hes hmatch
    exact hmatched hsome
  · exact h.elim

theorem SolelyNamed.found_in_process (hsole : SolelyNamed es v kind)
    (hes : expandAndExtract rules = .ok es) {orders : ProcessOrders} {globals : List Feature}
    {p : Address × ProcessFeatures} {k : Scope}
    (h : MatchedInProcess (MatchingRuleSet.ofExpanded es) orders globals k v p) :
    Found es v kind k := by
  unfold MatchedInProcess at h
  split at h
  · obtain ⟨out, hout, hsome⟩ := h
    obtain ⟨acc, _, hout⟩ := bind_eq_ok.mp hout
    obtain ⟨results, hmatch, hout⟩ := bind_eq_ok.mp hout
    obtain rfl := Except.ok.inj hout
    obtain ⟨_, _, hmatched⟩ := hsole.matchScopeResults hes hmatch
    exact hmatched hsome
  · obtain ⟨t, _, ht⟩ := h
    exact hsole.found_in_thread hes ht

theorem SolelyNamed.thread_step (hsole : SolelyNamed es v kind)
    (hes : expandAndExtract rules = .ok es) {orders : ProcessOrders} {globals : List Feature}
    {t : Address × ThreadFeatures} {b b' : FeatureSet × LowerMatches}
    (hglobals : .matchedRule v ∉ globals) (hown : ∀ e ∈ t.2.features, e.2 ≠ .matchedRule v)
    (hcalls : ∀ c ∈ t.2.calls.entries, ∀ e ∈ c.2.features, e.2 ≠ .matchedRule v)
    (h : visitThread (MatchingRuleSet.ofExpanded es) orders globals b t = .ok b') :
    let at_ := fun k => MatchedInThread (MatchingRuleSet.ofExpanded es) (orders.thread t.1)
      globals k v t
    (b'.1.Has v ↔ b.1.Has v ∨ (at_ .call ∨ at_ .thread)) ∧
      ((b'.2.call.get? v).isSome = true ↔ (b.2.call.get? v).isSome = true ∨ at_ .call) ∧
      ((b'.2.span.get? v).isSome = true ↔ (b.2.span.get? v).isSome = true ∨ at_ .spanOfCalls) ∧
      ((b'.2.thread.get? v).isSome = true ↔
        (b.2.thread.get? v).isSome = true ∨ at_ .thread) := by
  intro at_
  obtain ⟨c, hc, h⟩ := bind_eq_ok.mp h
  obtain rfl := Except.ok.inj h
  obtain ⟨-, -, -, -, hfeatures, hcall, hspan⟩ := hsole.thread hes hglobals hown hcalls hc
  have hthread : at_ .thread ↔ (c.threadMatches.get? v).isSome = true := exists_eq_ok_iff hc
  refine ⟨?_, ?_, ?_, ?_⟩
  · rw [FeatureSet.has_mergeOwned, hfeatures, hthread]
    exact Iff.rfl
  · rw [isSome_extendMatches, hcall]
    exact Iff.rfl
  · rw [isSome_extendMatches, hspan]
    exact Iff.rfl
  · rw [isSome_extendMatches, hthread]

/-- What matching a process tells of the value. -/
theorem SolelyNamed.process (hsole : SolelyNamed es v kind) (hes : expandAndExtract rules = .ok es)
    {orders : ProcessOrders} {addr : Address} {process : ProcessFeatures} {globals : List Feature}
    {out : ProcessCapabilities} (hglobals : .matchedRule v ∉ globals)
    (hown : ∀ e ∈ process.features, e.2 ≠ .matchedRule v)
    (hthreads : ∀ t ∈ process.threads.entries, ∀ e ∈ t.2.features, e.2 ≠ .matchedRule v)
    (hcalls : ∀ t ∈ process.threads.entries, ∀ c ∈ t.2.calls.entries, ∀ e ∈ c.2.features,
      e.2 ≠ .matchedRule v)
    (h : findProcessCapabilities (MatchingRuleSet.ofExpanded es) orders addr process globals =
      .ok out) :
    let inside := fun k => ∃ t ∈ process.threads.entries,
      MatchedInThread (MatchingRuleSet.ofExpanded es) (orders.thread t.1) globals k v t
    ∃ input, processInput (MatchingRuleSet.ofExpanded es) orders process globals = .ok input ∧
      (MatchingRuleSet.ofExpanded es).matchScopeResults .process input addr =
        .ok out.processMatches ∧
      (input.Has v ↔ inside .call ∨ inside .thread) ∧
      ((out.lower.call.get? v).isSome = true ↔ inside .call) ∧
      ((out.lower.span.get? v).isSome = true ↔ inside .spanOfCalls) ∧
      ((out.lower.thread.get? v).isSome = true ↔ inside .thread) := by
  intro inside
  obtain ⟨⟨features, lower⟩, hacc, h⟩ := bind_eq_ok.mp h
  obtain ⟨results, hmatch, h⟩ := bind_eq_ok.mp h
  obtain rfl := Except.ok.inj h
  have hfeatures : features.Has v ↔ inside .call ∨ inside .thread := by
    have hexists := foldlM_exists (P := fun b => b.1.Has v) hacc
      fun t ht b b' hv =>
        (hsole.thread_step hes hglobals (hthreads t ht) (hcalls t ht) hv).1
    refine hexists.trans ((or_iff_right FeatureSet.not_has_empty).trans ?_)
    simp only [and_or_left, exists_or, inside]
  have hinput : (seed features process.features globals).Has v ↔ inside .call ∨ inside .thread :=
    (has_seed_of_free hown hglobals).trans hfeatures
  refine ⟨_, by rw [processInput, hacc]; rfl, hmatch, hinput, ?_, ?_, ?_⟩
  · exact isSome_foldlM (·.2.call) hacc rfl fun t ht b b' hv =>
      (hsole.thread_step hes hglobals (hthreads t ht) (hcalls t ht) hv).2.1
  · exact isSome_foldlM (·.2.span) hacc rfl fun t ht b b' hv =>
      (hsole.thread_step hes hglobals (hthreads t ht) (hcalls t ht) hv).2.2.1
  · exact isSome_foldlM (·.2.thread) hacc rfl fun t ht b b' hv =>
      (hsole.thread_step hes hglobals (hthreads t ht) (hcalls t ht) hv).2.2.2

theorem SolelyNamed.process_step (hsole : SolelyNamed es v kind)
    (hes : expandAndExtract rules = .ok es) {orders : DynamicOrders} {globals : List Feature}
    {p : Address × ProcessFeatures} {b b' : DynamicMatches}
    (hglobals : .matchedRule v ∉ globals) (hown : ∀ e ∈ p.2.features, e.2 ≠ .matchedRule v)
    (hthreads : ∀ t ∈ p.2.threads.entries, ∀ e ∈ t.2.features, e.2 ≠ .matchedRule v)
    (hcalls : ∀ t ∈ p.2.threads.entries, ∀ c ∈ t.2.calls.entries, ∀ e ∈ c.2.features,
      e.2 ≠ .matchedRule v)
    (h : visitProcess (MatchingRuleSet.ofExpanded es) orders globals b p = .ok b') :
    let at_ := fun k => MatchedInProcess (MatchingRuleSet.ofExpanded es) (orders.process p.1)
      globals k v p
    ((b'.lower.call.get? v).isSome = true ↔ (b.lower.call.get? v).isSome = true ∨ at_ .call) ∧
      ((b'.lower.span.get? v).isSome = true ↔
        (b.lower.span.get? v).isSome = true ∨ at_ .spanOfCalls) ∧
      ((b'.lower.thread.get? v).isSome = true ↔
        (b.lower.thread.get? v).isSome = true ∨ at_ .thread) ∧
      ((b'.process.get? v).isSome = true ↔
        (b.process.get? v).isSome = true ∨ at_ .process) := by
  intro at_
  obtain ⟨c, hc, h⟩ := bind_eq_ok.mp h
  obtain rfl := Except.ok.inj h
  obtain ⟨-, -, -, -, hcall, hspan, hthread⟩ :=
    hsole.process hes hglobals hown hthreads hcalls hc
  have hprocess : at_ .process ↔ (c.processMatches.get? v).isSome = true := exists_eq_ok_iff hc
  refine ⟨?_, ?_, ?_, ?_⟩
  · rw [isSome_extendMatches, hcall]
    exact Iff.rfl
  · rw [isSome_extendMatches, hspan]
    exact Iff.rfl
  · rw [isSome_extendMatches, hthread]
    exact Iff.rfl
  · rw [isSome_extendMatches, hprocess]

/-- What matching the file tells of the value: the file sees every match below it. -/
theorem SolelyNamed.file (hsole : SolelyNamed es v kind) (hes : expandAndExtract rules = .ok es)
    {orders : DynamicOrders} {freeze : DynamicFeatures} {out : DynamicCapabilities}
    (hfree : Unmatched v freeze)
    (h : findDynamicCapabilities (MatchingRuleSet.ofExpanded es) freeze orders = .ok out) :
    let inside := MatchedInFile (MatchingRuleSet.ofExpanded es) orders freeze
    (∀ p ∈ freeze.processes.entries, ∃ c, findProcessCapabilities (MatchingRuleSet.ofExpanded es)
      (orders.process p.1) p.1 p.2 freeze.globalFeatures = .ok c) ∧
    ∃ input results, fileInput (MatchingRuleSet.ofExpanded es) orders freeze = .ok input ∧
      (MatchingRuleSet.ofExpanded es).matchScopeResults .file input .noAddress = .ok results ∧
      (input.Has v ↔ inside .call v ∨ inside .spanOfCalls v ∨ inside .thread v ∨
        inside .process v) := by
  intro inside
  obtain ⟨all, results, hacc, hmatch, -⟩ := findDynamicCapabilities_ok h
  have hprocess : ∀ p ∈ freeze.processes.entries, ∃ c,
      findProcessCapabilities (MatchingRuleSet.ofExpanded es) (orders.process p.1) p.1 p.2
        freeze.globalFeatures = .ok c := by
    intro p hp
    obtain ⟨_, _, hvisit⟩ := foldlM_step hacc hp
    obtain ⟨c, hc, _⟩ := bind_eq_ok.mp hvisit
    exact ⟨c, hc⟩
  have hstep (p : Address × ProcessFeatures) (hp : p ∈ freeze.processes.entries)
      {b b' : DynamicMatches} (hv : visitProcess (MatchingRuleSet.ofExpanded es) orders
        freeze.globalFeatures b p = .ok b') :=
    hsole.process_step hes hfree.globals (hfree.process p hp) (hfree.thread p hp) (hfree.call p hp)
      hv
  have hcall : (all.lower.call.get? v).isSome = true ↔ inside .call v :=
    isSome_foldlM (·.lower.call) hacc rfl fun p hp b b' hv => (hstep p hp hv).1
  have hspan : (all.lower.span.get? v).isSome = true ↔ inside .spanOfCalls v :=
    isSome_foldlM (·.lower.span) hacc rfl fun p hp b b' hv => (hstep p hp hv).2.1
  have hthread : (all.lower.thread.get? v).isSome = true ↔ inside .thread v :=
    isSome_foldlM (·.lower.thread) hacc rfl fun p hp b b' hv => (hstep p hp hv).2.2.1
  have hproc : (all.process.get? v).isSome = true ↔ inside .process v :=
    isSome_foldlM (·.process) hacc rfl fun p hp b b' hv => (hstep p hp hv).2.2.2
  refine ⟨hprocess, _, results, by rw [fileInput, hacc]; rfl, hmatch, ?_⟩
  rw [FeatureSet.has_merge, or_iff_right, processAndLowerFeatures, has_publishMatches, ← hcall,
    ← hspan, ← hthread, ← hproc]
  · have hentry : ∀ (order : IterOrder) (m : MatchResults),
        (∃ name res rule, (name, res) ∈ (order.reorder m).entries ∧
          (MatchingRuleSet.ofExpanded es).get name = some rule ∧ v ∈ rule.published) →
        (m.get? v).isSome = true := by
      intro order m ⟨name, res, rule, he, hget, hv⟩
      obtain ⟨hrule, hname⟩ := indexByName_some hget
      have hres : m.get? name = some res := (order.mem_reorder m (name, res)).mp he
      rw [← (hsole rule hrule hv).1, hname, hres]
      rfl
    have hback : ∀ (order : IterOrder) (m : MatchResults) (k : Scope), inside k v →
        (m.get? v).isSome = true → ∃ name res rule, (name, res) ∈ (order.reorder m).entries ∧
          (MatchingRuleSet.ofExpanded es).get name = some rule ∧ v ∈ rule.published := by
      intro order m k ⟨p, _, hp⟩ hsome
      obtain ⟨_, rule, hget, hv⟩ := hsole.found_in_process hes hp
      obtain ⟨res, hres⟩ := Option.isSome_iff_exists.mp hsome
      exact ⟨v, res, rule, (order.mem_reorder m (v, res)).mpr hres, hget, hv⟩
    simp only [List.mem_append, or_and_right, exists_or, or_assoc]
    refine or_congr ⟨hentry _ _, fun hs => hback _ _ _ (hcall.mp hs) hs⟩
      (or_congr ⟨hentry _ _, fun hs => hback _ _ _ (hspan.mp hs) hs⟩
        (or_congr ⟨hentry _ _, fun hs => hback _ _ _ (hthread.mp hs) hs⟩
          ⟨hentry _ _, fun hs => hback _ _ _ (hproc.mp hs) hs⟩))
  · rw [has_seedFile]
    rintro (⟨e, he, hev⟩ | hg)
    · exact hfree.file e he hev
    · exact hfree.globals hg

/-! ## The leaf of a subscope -/

/-- The leaf is true when its value is among the features matching ends with. -/
theorem SolelyNamed.leafTrue (hsole : SolelyNamed es v kind) (hes : expandAndExtract rules = .ok es)
    {scope : Scope} {features : Except EngineError FeatureSet} {fs : FeatureSet} {addr : Address}
    {results : MatchResults} (hfs : features = .ok fs)
    (h : (MatchingRuleSet.ofExpanded es).matchScopeResults scope fs addr = .ok results) :
    LeafTrue (MatchingRuleSet.ofExpanded es) scope features addr v ↔
      fs.Has v ∨ (results.get? v).isSome = true := by
  obtain ⟨fs', hrun, _⟩ := hsole.matchScopeResults hes h
  rw [← (hsole.matchScope hes hrun).1, ← leafBoolean_matchedRule]
  constructor
  · intro ⟨gs, gs', results', hgs, hrun', hleaf⟩
    obtain rfl := Except.ok.inj (hfs.symm.trans hgs)
    rw [hrun] at hrun'
    rwa [(Prod.mk.inj (Except.ok.inj hrun')).1]
  · exact fun hleaf => ⟨fs, fs', results, hfs, hrun, hleaf⟩

omit [ComDatabase] [RegexBackend] in
theorem leaf_iff_below {leaf : Prop} {inside : Scope → Prop}
    (hleaf : leaf ↔ inside .call ∨ inside .thread ∨ inside .process)
    (honly : ∀ k, inside k → k = kind)
    (hdynamic : kind ∈ [Scope.process, .thread, .spanOfCalls, .call]) :
    (leaf ↔ inside kind) ↔ ¬ (kind = .spanOfCalls ∧ inside kind) := by
  have hmem : kind = .process ∨ kind = .thread ∨ kind = .spanOfCalls ∨ kind = .call := by
    simpa using hdynamic
  have hcases : leaf ↔ kind ≠ .spanOfCalls ∧ inside kind := by
    rw [hleaf]
    constructor
    · rintro (h | h | h)
      · exact ⟨by rw [← honly _ h]; decide, honly _ h ▸ h⟩
      · exact ⟨by rw [← honly _ h]; decide, honly _ h ▸ h⟩
      · exact ⟨by rw [← honly _ h]; decide, honly _ h ▸ h⟩
    · rintro ⟨hne, h⟩
      rcases hmem with rfl | rfl | rfl | rfl
      · exact Or.inr (Or.inr h)
      · exact Or.inr (Or.inl h)
      · exact absurd rfl hne
      · exact Or.inl h
  rw [hcases]
  tauto

theorem SolelyNamed.leaf_thread (hsole : SolelyNamed es v kind)
    (hes : expandAndExtract rules = .ok es) {orders : ThreadOrders}
    {t : Address × ThreadFeatures} {globals : List Feature} {out : ThreadCapabilities}
    (hdynamic : kind ∈ [Scope.process, .thread, .spanOfCalls, .call])
    (hglobals : .matchedRule v ∉ globals) (hown : ∀ e ∈ t.2.features, e.2 ≠ .matchedRule v)
    (hcalls : ∀ c ∈ t.2.calls.entries, ∀ e ∈ c.2.features, e.2 ≠ .matchedRule v)
    (h : findThreadCapabilities (MatchingRuleSet.ofExpanded es) orders t.1 t.2 globals = .ok out) :
    let matched := MatchedInThread (MatchingRuleSet.ofExpanded es) orders globals kind v t
    (LeafTrue (MatchingRuleSet.ofExpanded es) .thread
        (threadInput (MatchingRuleSet.ofExpanded es) orders t.2 globals) t.1 v ↔ matched) ↔
      ¬ (kind = .spanOfCalls ∧ matched) := by
  intro matched
  obtain ⟨fs, hfs, hthread, hhas, -⟩ := hsole.thread hes hglobals hown hcalls h
  have hat : MatchedInThread (MatchingRuleSet.ofExpanded es) orders globals .thread v t ↔
      (out.threadMatches.get? v).isSome = true := exists_eq_ok_iff h
  have honly : ∀ k, MatchedInThread (MatchingRuleSet.ofExpanded es) orders globals k v t →
      k = kind := fun k h => (hsole.found_in_thread hes h).1
  apply leaf_iff_below ?_ honly hdynamic
  rw [hsole.leafTrue hes hfs hthread, hhas, hat]
  -- no thread lies above a process
  exact or_congr Iff.rfl
    (or_iff_left fun h : MatchedInThread _ orders globals .process v t => h).symm

theorem SolelyNamed.leaf_process (hsole : SolelyNamed es v kind)
    (hes : expandAndExtract rules = .ok es) {orders : ProcessOrders}
    {p : Address × ProcessFeatures} {globals : List Feature} {out : ProcessCapabilities}
    (hdynamic : kind ∈ [Scope.process, .thread, .spanOfCalls, .call])
    (hglobals : .matchedRule v ∉ globals) (hown : ∀ e ∈ p.2.features, e.2 ≠ .matchedRule v)
    (hthreads : ∀ t ∈ p.2.threads.entries, ∀ e ∈ t.2.features, e.2 ≠ .matchedRule v)
    (hcalls : ∀ t ∈ p.2.threads.entries, ∀ c ∈ t.2.calls.entries, ∀ e ∈ c.2.features,
      e.2 ≠ .matchedRule v)
    (h : findProcessCapabilities (MatchingRuleSet.ofExpanded es) orders p.1 p.2 globals =
      .ok out) :
    let matched := MatchedInProcess (MatchingRuleSet.ofExpanded es) orders globals kind v p
    (LeafTrue (MatchingRuleSet.ofExpanded es) .process
        (processInput (MatchingRuleSet.ofExpanded es) orders p.2 globals) p.1 v ↔ matched) ↔
      ¬ (kind = .spanOfCalls ∧ matched) := by
  intro matched
  obtain ⟨fs, hfs, hresults, hhas, -⟩ := hsole.process hes hglobals hown hthreads hcalls h
  have hat : MatchedInProcess (MatchingRuleSet.ofExpanded es) orders globals .process v p ↔
      (out.processMatches.get? v).isSome = true := exists_eq_ok_iff h
  have honly : ∀ k, MatchedInProcess (MatchingRuleSet.ofExpanded es) orders globals k v p →
      k = kind := fun k h => (hsole.found_in_process hes h).1
  apply leaf_iff_below ?_ honly hdynamic
  rw [hsole.leafTrue hes hfs hresults, hhas, hat, or_assoc]
  exact Iff.rfl

/-- The leaf at the file: no rule of a subscope matches there. -/
theorem SolelyNamed.leaf_file (hsole : SolelyNamed es v kind)
    (hes : expandAndExtract rules = .ok es) {orders : DynamicOrders} {freeze : DynamicFeatures}
    {input : FeatureSet} {results : MatchResults}
    (hdynamic : kind ∈ [Scope.process, .thread, .spanOfCalls, .call])
    (hinput : fileInput (MatchingRuleSet.ofExpanded es) orders freeze = .ok input)
    (hmatch : (MatchingRuleSet.ofExpanded es).matchScopeResults .file input .noAddress =
      .ok results)
    (hhas : input.Has v ↔ MatchedInFile (MatchingRuleSet.ofExpanded es) orders freeze .call v ∨
      MatchedInFile (MatchingRuleSet.ofExpanded es) orders freeze .spanOfCalls v ∨
      MatchedInFile (MatchingRuleSet.ofExpanded es) orders freeze .thread v ∨
      MatchedInFile (MatchingRuleSet.ofExpanded es) orders freeze .process v) :
    LeafTrue (MatchingRuleSet.ofExpanded es) .file
        (fileInput (MatchingRuleSet.ofExpanded es) orders freeze) .noAddress v ↔
      MatchedInFile (MatchingRuleSet.ofExpanded es) orders freeze kind v := by
  have hfound {k : Scope} (h : MatchedInFile (MatchingRuleSet.ofExpanded es) orders freeze k v) :
      k = kind := by
    obtain ⟨p, -, hp⟩ := h
    exact (hsole.found_in_process hes hp).1
  have hfile : ¬ (results.get? v).isSome = true := by
    intro hsome
    obtain ⟨-, -, hmatched⟩ := hsole.matchScopeResults hes hmatch
    rw [← (hmatched hsome).1] at hdynamic
    exact absurd hdynamic (by decide)
  have hmem : kind = .process ∨ kind = .thread ∨ kind = .spanOfCalls ∨ kind = .call := by
    simpa using hdynamic
  rw [hsole.leafTrue hes hinput hmatch, or_iff_left hfile, hhas]
  constructor
  · intro h
    obtain h | h | h | h := h
    · exact hfound h ▸ h
    · exact hfound h ▸ h
    · exact hfound h ▸ h
    · exact hfound h ▸ h
  · intro h
    obtain rfl | rfl | rfl | rfl := hmem
    · exact Or.inr (Or.inr (Or.inr h))
    · exact Or.inr (Or.inr (Or.inl h))
    · exact Or.inr (Or.inl h)
    · exact Or.inl h

/-- With the names kept apart, the turn of a rule finds its leaves as matching leaves them. -/
theorem Expansion.leaf_at_turn (h : Expansion rules es) {scope : Scope} {pre post : List Rule}
    {e : Rule} (hL : (MatchingRuleSet.ofExpanded es).rulesForScope scope = pre ++ e :: post)
    (hv : v ∈ e.body.observed) {fs fs1 fs' : FeatureSet} {addr : Address}
    {results1 results : MatchResults}
    (hpre : pre.foldlM (matchRule addr) (fs, ∅) = .ok (fs1, results1))
    (hrun : (MatchingRuleSet.ofExpanded es).matchScope scope fs addr = .ok (fs', results)) :
    leafBoolean fs1 (.matchedRule v) = leafBoolean fs' (.matchedRule v) := by
  rw [MatchingRuleSet.matchScope_ofExpanded h.expanded, hL, List.foldlM_append, hpre] at hrun
  have hnodup := h.untangled.rulesForScope_nodup scope
  rw [hL] at hnodup
  have hkeep : fs'.get? (.matchedRule v) = fs1.get? (.matchedRule v) := by
    refine matchRules_get?_of_not hrun fun a ha w hw he => ?_
    obtain rfl := Feature.matchedRule.inj he
    have hmem : a ∈ (MatchingRuleSet.ofExpanded es).rulesForScope scope := by
      rw [hL]
      exact List.mem_append_right _ ha
    have hbefore : a ∈ pre := h.publishers_first hL hmem hv hw
    exact List.disjoint_of_nodup_append (List.Nodup.of_map _ hnodup) hbefore ha
  show Except.ok (fs1.containsKey _) = Except.ok (fs'.containsKey _)
  rw [IndexMap.containsKey_eq_isSome, IndexMap.containsKey_eq_isSome, hkeep]

omit [RegexBackend] in
/-- Only the extracted rule is published under its name, and the sample has no match feature of
    that name. -/
structure NameKept (es : List Rule) (s : Rule) (freeze : DynamicFeatures) : Prop where
  sole : ∀ a ∈ es, s.name ∈ a.published → FinishesAs s a
  free : Unmatched s.name freeze

omit [ComDatabase] [RegexBackend] in
/-- A condition that is exact under another one. -/
theorem enough_and_needed {kept good claimed : Prop} (h : kept → (claimed ↔ good)) :
    (kept ∧ good → claimed) ∧ (kept → claimed → good) :=
  ⟨fun hboth => (h hboth.1).mpr hboth.2, fun hkept => (h hkept).mp⟩

/-- The leaf that takes the place of a subscope of a dynamic rule is in the finished rule. It is
    true at a thread, a process or the file exactly when the extracted rule matched inside, when
    the name is kept and no span of calls below a thread or a process did match; and where the
    name is kept, a span that did match is always missed. With the names kept apart, the turn of a
    rule that asks for the leaf finds it as it stands at the end. -/
theorem subscopeLeaf_iff (hes : expandAndExtract rules = .ok es) {r r' s : Rule} {syn : List Rule}
    (hr : Descends rules r) (hext : extractRule r = .ok (r', syn)) (hs : s ∈ syn)
    (hkind : s.scopes = .ofSubscope kind)
    (hdynamic : kind ∈ [.process, .thread, .spanOfCalls, .call])
    (freeze : DynamicFeatures) (orders : DynamicOrders) (out : DynamicCapabilities)
    (hrun : findDynamicCapabilities (MatchingRuleSet.ofExpanded es) freeze orders = .ok out) :
    let set := MatchingRuleSet.ofExpanded es
    let globals := freeze.globalFeatures
    (∃ e ∈ es, FinishesAs r e ∧ s.name ∈ e.body.observed) ∧
    (∀ p ∈ freeze.processes.entries, ∀ t ∈ p.2.threads.entries,
      let orders := (orders.process p.1).thread t.1
      let matched := MatchedInThread set orders globals kind s.name t
      let leaf := LeafTrue set .thread (threadInput set orders t.2 globals) t.1 s.name
      (NameKept es s freeze ∧ ¬ (kind = .spanOfCalls ∧ matched) → (leaf ↔ matched)) ∧
        (NameKept es s freeze → (leaf ↔ matched) → ¬ (kind = .spanOfCalls ∧ matched))) ∧
    (∀ p ∈ freeze.processes.entries,
      let orders := orders.process p.1
      let matched := MatchedInProcess set orders globals kind s.name p
      let leaf := LeafTrue set .process (processInput set orders p.2 globals) p.1 s.name
      (NameKept es s freeze ∧ ¬ (kind = .spanOfCalls ∧ matched) → (leaf ↔ matched)) ∧
        (NameKept es s freeze → (leaf ↔ matched) → ¬ (kind = .spanOfCalls ∧ matched))) ∧
    (NameKept es s freeze →
      (LeafTrue set .file (fileInput set orders freeze) .noAddress s.name ↔
        MatchedInFile set orders freeze kind s.name)) ∧
    (Expansion rules es → ∀ scope pre e post, set.rulesForScope scope = pre ++ e :: post →
      s.name ∈ e.body.observed → ∀ fs turn addr results,
      pre.foldlM (matchRule addr) (fs, ∅) = .ok turn → set.matchScope scope fs addr = .ok results →
      leafBoolean turn.1 (.matchedRule s.name) = leafBoolean results.1 (.matchedRule s.name)) := by
  intro set globals
  have hnamed (hkept : NameKept es s freeze) : SolelyNamed es s.name kind := fun a ha hv => by
    have hf := hkept.sole a ha hv
    exact ⟨hf.keeps.name, hf.keeps.scopes.trans hkind⟩
  have hfinish : FinishesAs r (r'.setBody (optimizeNode r'.body)) := ⟨r', syn, hext, rfl⟩
  refine ⟨⟨_, (expandAndExtract_spec hes).1 _ |>.mpr ⟨r, hr, hfinish⟩, hfinish,
    hfinish.observes_synthetic hext hs⟩, fun p hp t ht => ?_, fun p hp => ?_, fun hkept => ?_,
    fun h _ _ _ _ hL hv _ _ _ _ hpre hrun => h.leaf_at_turn hL hv hpre hrun⟩
  · refine enough_and_needed fun hkept => ?_
    obtain ⟨hprocess, -⟩ := (hnamed hkept).file hes hkept.free hrun
    obtain ⟨c, hc⟩ := hprocess p hp
    obtain ⟨_, hthreads, -⟩ := bind_eq_ok.mp hc
    obtain ⟨_, _, hvisit⟩ := foldlM_step hthreads ht
    obtain ⟨o, ho, -⟩ := bind_eq_ok.mp hvisit
    exact (hnamed hkept).leaf_thread hes hdynamic hkept.free.globals
      (hkept.free.thread p hp t ht) (hkept.free.call p hp t ht) ho
  · refine enough_and_needed fun hkept => ?_
    obtain ⟨hprocess, -⟩ := (hnamed hkept).file hes hkept.free hrun
    obtain ⟨c, hc⟩ := hprocess p hp
    exact (hnamed hkept).leaf_process hes hdynamic hkept.free.globals
      (hkept.free.process p hp) (hkept.free.thread p hp) (hkept.free.call p hp) hc
  · obtain ⟨-, input, results, hinput, hmatch, hhas⟩ := (hnamed hkept).file hes hkept.free hrun
    exact (hnamed hkept).leaf_file hes hdynamic hinput hmatch hhas

end

/-- A process whose one thread creates a file and writes to it. -/
def writingSample : DynamicFeatures where
  globalFeatures := [.os "windows"]
  fileFeatures := []
  processes := .ofList [(.process 0 1, ⟨[], .ofList [(.thread 0 1 1, writingThread)]⟩)]

def createAndWrite : Node :=
  ⟨.and [⟨.leaf (.api "CreateFile"), none⟩, ⟨.leaf (.api "WriteFile"), none⟩], none⟩

/-- A rule of the file that asks for a span of calls. -/
def written : Rule :=
  .minimal "written" none ⟨none, some .file⟩
    ⟨.and [⟨.subscope .spanOfCalls createAndWrite, none⟩], none⟩

theorem subscopeLeaf_iff_written :
    ∃ es out, @expandAndExtract .empty [written] = .ok es ∧
      @findDynamicCapabilities .empty (.ofExpanded es) writingSample .insertion = .ok out ∧
      (@LeafTrue .empty (.ofExpanded es) .file
          (@fileInput .empty (.ofExpanded es) .insertion writingSample) .noAddress "written/1" ↔
        @MatchedInFile .empty (.ofExpanded es) .insertion writingSample .spanOfCalls
          "written/1") := by
  refine ⟨_, _, rfl, rfl, ?_⟩
  have hfree : Unmatched "written/1" writingSample := by
    exact ⟨by simp [writingSample], by decide, by decide, by decide, by decide⟩
  refine (@subscopeLeaf_iff .empty .empty [written] _ .spanOfCalls rfl written _
    (subscopeRule "written/1" .spanOfCalls createAndWrite "written") _
    (@Descends.given .empty _ _ List.mem_cons_self) rfl List.mem_cons_self rfl (by decide)
    writingSample .insertion _ rfl).2.2.2.1
    (@NameKept.mk .empty _ _ _ (fun a ha hv => ?_) hfree)
  rcases List.mem_cons.mp ha with rfl | ha
  · exact absurd hv (by decide)
  · obtain rfl := List.mem_singleton.mp ha
    exact ⟨_, _, rfl, rfl⟩

/-- `and: [span of calls: [and: [api: CreateFile, api: WriteFile]]]` at thread scope. -/
def spanBelowThread : Yaml.Value :=
  ruleDocument "written" "unsupported" "thread"
    [(.string "and", .sequence [.mapping [(.string "span of calls", .sequence [
      .mapping [(.string "and", .sequence [.mapping [(.string "api", .string "CreateFile")],
        .mapping [(.string "api", .string "WriteFile")]])]])]])]

/-- The parser and `MatchingRuleSet::new` accept a span of calls below a thread. The span matches
    and its match is recorded, but the leaf is false and the rule of the thread does not match. -/
theorem spanBelowThread_unseen :
    ∃ rule set out, @ruleFromDocument .blank .empty "" spanBelowThread = .ok rule ∧
      @MatchingRuleSet.new .empty [rule] = .ok set ∧
      @findDynamicCapabilities .empty set writingSample .insertion = .ok out ∧
      (out.results.get? "written/1").isSome = true ∧ out.results.get? "written" = none ∧
      @MatchedInThread .empty set .insertion writingSample.globalFeatures .spanOfCalls
        "written/1" (.thread 0 1 1, writingThread) ∧
      ¬ @LeafTrue .empty set .thread
        (@threadInput .empty set .insertion writingThread writingSample.globalFeatures)
        (.thread 0 1 1) "written/1" := by
  refine ⟨_, _, _, rfl, rfl, rfl, rfl, rfl, ⟨_, _, List.prefix_refl _, rfl, by decide⟩, ?_⟩
  intro ⟨fs, fs', results, hfs, hrun, hleaf⟩
  obtain rfl := Except.ok.inj hfs
  obtain ⟨rfl, rfl⟩ := Prod.mk.inj (Except.ok.inj hrun)
  exact Bool.false_ne_true (Except.ok.inj hleaf)

end CapaX
