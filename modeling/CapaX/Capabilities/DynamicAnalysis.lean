import CapaX.Capabilities.Drivers
import CapaX.Capabilities.Matching

/-
  The dynamic driver (`dynamic_analysis.rs`): the rules of each scope are matched bottom-up, on
  calls, spans of calls, threads, processes and the file. A match on a call is published in the
  features of the call, and so reaches the span, the thread and the process around it; a match on
  a thread reaches its process. A match on a span is only recorded. The file gets the matches of
  all lower units in one go.

  The span matcher slides a window of `spanSize` calls over a thread and keeps the union of the
  feature sets in the window.
-/

namespace CapaX

open Collections Control

/-- `SPAN_SIZE` -/
def spanSize : Nat := 20

/-! ## The orders of a run -/

/-- The orders in which the walks inside a thread go, by call where there is one for each. -/
structure ThreadOrders where
  promoteCall : Address → IterOrder
  extendCall : Address → IterOrder
  encountered : Address → IterOrder
  record : Address → IterOrder
  promote : IterOrder

/-- The orders of the walks inside a process, by thread. -/
structure ProcessOrders where
  thread : Address → ThreadOrders
  extendThread : Address → IterOrder
  extendSpan : Address → IterOrder
  extendCall : Address → IterOrder

/-- The orders of all walks of a run. -/
structure DynamicOrders where
  process : Address → ProcessOrders
  extendProcess : Address → IterOrder
  extendThread : Address → IterOrder
  extendSpan : Address → IterOrder
  extendCall : Address → IterOrder
  publishCall : IterOrder
  publishSpan : IterOrder
  publishThread : IterOrder
  publishProcess : IterOrder
  collectCall : IterOrder
  collectSpan : IterOrder
  collectThread : IterOrder
  collectProcess : IterOrder
  collectFile : IterOrder

def ThreadOrders.insertion : ThreadOrders :=
  ⟨fun _ => .insertion, fun _ => .insertion, fun _ => .insertion, fun _ => .insertion, .insertion⟩

def ProcessOrders.insertion : ProcessOrders :=
  ⟨fun _ => .insertion, fun _ => .insertion, fun _ => .insertion, fun _ => .insertion⟩

/-- Every walk in insertion order. -/
def DynamicOrders.insertion : DynamicOrders where
  process _ := .insertion
  extendProcess _ := .insertion
  extendThread _ := .insertion
  extendSpan _ := .insertion
  extendCall _ := .insertion
  publishCall := .insertion
  publishSpan := .insertion
  publishThread := .insertion
  publishProcess := .insertion
  collectCall := .insertion
  collectSpan := .insertion
  collectThread := .insertion
  collectProcess := .insertion
  collectFile := .insertion

/-! ## Calls and spans of calls -/

/-- The matcher over the calls of one thread. -/
structure SpanOfCallsMatcher where
  results : MatchResults
  /-- the feature sets of the calls in the window, oldest first -/
  currentFeatureSets : List FeatureSet
  /-- the union of `currentFeatureSets` -/
  currentFeatures : FeatureSet
  lastSpanMatches : OrdSet String

namespace SpanOfCallsMatcher

def new : SpanOfCallsMatcher := ⟨∅, [], ∅, ∅⟩

end SpanOfCallsMatcher

/-- Take one feature of the oldest call out of the window. A lone `noAddress` is a global feature
    and stays. -/
def removeLocations (current : FeatureSet) (e : Feature × OrdSet Address) : FeatureSet :=
  if e.2.card = 1 ∧ Address.noAddress ∈ e.2 then current
  else
    match current.get? e.1 with
    | none => current
    | some locs =>
      let rest := locs.eraseAll e.2.toList
      if rest.isEmpty then current.erase e.1 else current.modify e.1 fun _ => rest

def removeOverflowing (current overflowing : FeatureSet) : FeatureSet :=
  overflowing.entries.foldl removeLocations current

section

variable [RegexBackend] (set : MatchingRuleSet)

def findCallCapabilities (order : IterOrder) (addr : Address) (call : CallFeatures)
    (globals : List Feature) : Except EngineError (FeatureSet × MatchResults) := do
  let features := seed ∅ call.features globals
  let results ← set.matchScopeResults .call features addr
  return (promoteMatches set order features results, results)

/-- The rules of the last span that are not recorded again: all but the dependencies of a rule
    that matches now and did not match then. -/
def suppressedRules (last : OrdSet String) (encountered : List String) : OrdSet String :=
  encountered.foldl (fun suppressed name =>
    match set.get name with
    | none => suppressed
    | some rule =>
      suppressed.eraseAll (getDependencies rule.body set.byNamespacePrefix).toList) last

namespace SpanOfCallsMatcher

/-- What a full window loses before a call enters it. -/
def overflowed (m : SpanOfCallsMatcher) : List FeatureSet × FeatureSet :=
  if m.currentFeatureSets.length = spanSize then
    match m.currentFeatureSets with
    | [] => ([], m.currentFeatures)
    | overflowing :: sets => (sets, removeOverflowing m.currentFeatures overflowing)
  else (m.currentFeatureSets, m.currentFeatures)

/-- `SpanOfCallsMatcher::next` -/
def next (encountered record : IterOrder) (m : SpanOfCallsMatcher) (addr : Address)
    (callFeatures : FeatureSet) : Except EngineError SpanOfCallsMatcher := do
  let (sets, current) := m.overflowed
  let sets := sets ++ [callFeatures]
  let current := callFeatures.entries.foldl (fun acc e => acc.insertMany e.1 e.2) current
  let results ← set.matchScopeResults .spanOfCalls current addr
  let newlyEncountered := (encountered.reorder results).keys.filter fun name =>
    decide (name ∉ m.lastSpanMatches)
  let suppressed := suppressedRules set m.lastSpanMatches newlyEncountered
  let recorded := (record.reorder results).entries.foldl (fun acc e =>
    if e.1 ∈ suppressed then acc else acc.upsert e.1 fun o => o.getD [] ++ e.2) m.results
  return ⟨recorded, sets, current, .ofList results.keys⟩

end SpanOfCallsMatcher

/-! ## Threads and processes -/

/-- What the loop over the calls of a thread carries. -/
structure CallLoop where
  features : FeatureSet
  callMatches : MatchResults
  spanMatcher : SpanOfCallsMatcher

/-- One turn of the loop over the calls of a thread. -/
def visitCall (orders : ThreadOrders) (globals : List Feature) (acc : CallLoop)
    (e : Address × CallFeatures) : Except EngineError CallLoop := do
  let (callFeatures, results) ← findCallCapabilities set (orders.promoteCall e.1) e.1 e.2 globals
  let spanMatcher ← acc.spanMatcher.next set (orders.encountered e.1) (orders.record e.1) e.1
    callFeatures
  return ⟨acc.features.merge callFeatures, extendMatches (orders.extendCall e.1) acc.callMatches
    results, spanMatcher⟩

def visitCalls (orders : ThreadOrders) (globals : List Feature)
    (calls : List (Address × CallFeatures)) : Except EngineError CallLoop :=
  calls.foldlM (visitCall set orders globals) ⟨∅, ∅, .new⟩

/-- What matching a thread returns. -/
structure ThreadCapabilities where
  features : FeatureSet
  threadMatches : MatchResults
  spanMatches : MatchResults
  callMatches : MatchResults

def findThreadCapabilities (orders : ThreadOrders) (addr : Address) (thread : ThreadFeatures)
    (globals : List Feature) : Except EngineError ThreadCapabilities := do
  let acc ← visitCalls set orders globals thread.calls.entries
  let features := seed acc.features thread.features globals
  let threadMatches ← set.matchScopeResults .thread features addr
  return ⟨promoteMatches set orders.promote features threadMatches, threadMatches,
    acc.spanMatcher.results, acc.callMatches⟩

/-- The matches of the units below a process, or of all units. -/
structure LowerMatches where
  thread : MatchResults
  span : MatchResults
  call : MatchResults

/-- One turn of the loop over the threads of a process. -/
def visitThread (orders : ProcessOrders) (globals : List Feature)
    (acc : FeatureSet × LowerMatches) (e : Address × ThreadFeatures) :
    Except EngineError (FeatureSet × LowerMatches) := do
  let c ← findThreadCapabilities set (orders.thread e.1) e.1 e.2 globals
  return (acc.1.mergeOwned c.features,
    ⟨extendMatches (orders.extendThread e.1) acc.2.thread c.threadMatches,
      extendMatches (orders.extendSpan e.1) acc.2.span c.spanMatches,
      extendMatches (orders.extendCall e.1) acc.2.call c.callMatches⟩)

/-- What matching a process returns. -/
structure ProcessCapabilities where
  processMatches : MatchResults
  lower : LowerMatches
  featureCount : Nat

/-- Process matches are not published in the features of the process. -/
def findProcessCapabilities (orders : ProcessOrders) (addr : Address) (process : ProcessFeatures)
    (globals : List Feature) : Except EngineError ProcessCapabilities := do
  let (features, lower) ←
    process.threads.entries.foldlM (visitThread set orders globals) (∅, ⟨∅, ∅, ∅⟩)
  let features := seed features process.features globals
  let featureCount := features.len
  let processMatches ← set.matchScopeResults .process features addr
  return ⟨processMatches, lower, featureCount⟩

/-! ## The file -/

/-- The matches of all processes and of everything in them, with the counts of features. -/
structure DynamicMatches where
  process : MatchResults
  lower : LowerMatches
  processFeatureCounts : List (Address × Nat)

/-- One turn of the loop over the processes. -/
def visitProcess (orders : DynamicOrders) (globals : List Feature) (acc : DynamicMatches)
    (e : Address × ProcessFeatures) : Except EngineError DynamicMatches := do
  let c ← findProcessCapabilities set (orders.process e.1) e.1 e.2 globals
  return ⟨extendMatches (orders.extendProcess e.1) acc.process c.processMatches,
    ⟨extendMatches (orders.extendThread e.1) acc.lower.thread c.lower.thread,
      extendMatches (orders.extendSpan e.1) acc.lower.span c.lower.span,
      extendMatches (orders.extendCall e.1) acc.lower.call c.lower.call⟩,
    acc.processFeatureCounts ++ [(e.1, c.featureCount)]⟩

/-- `process_and_lower_features` -/
def processAndLowerFeatures (orders : DynamicOrders) (all : DynamicMatches) : FeatureSet :=
  publishMatches set ((orders.publishCall.reorder all.lower.call).entries ++
    (orders.publishSpan.reorder all.lower.span).entries ++
    (orders.publishThread.reorder all.lower.thread).entries ++
    (orders.publishProcess.reorder all.process).entries)

structure DynamicCapabilities where
  results : MatchResults
  fileFeatureCount : Nat
  /-- one entry for each process, in address order -/
  processFeatureCounts : List (Address × Nat)

def findDynamicCapabilities (freeze : DynamicFeatures) (orders : DynamicOrders) :
    Except EngineError DynamicCapabilities := do
  let all ← freeze.processes.entries.foldlM (visitProcess set orders freeze.globalFeatures)
    ⟨∅, ⟨∅, ∅, ∅⟩, []⟩
  let (fileMatches, fileFeatureCount) ←
    findFileCapabilities set freeze.fileFeatures freeze.globalFeatures
      (processAndLowerFeatures set orders all)
  let results := extendMatches orders.collectCall ∅ all.lower.call
  let results := extendMatches orders.collectSpan results all.lower.span
  let results := extendMatches orders.collectThread results all.lower.thread
  let results := extendMatches orders.collectProcess results all.process
  let results := extendMatches orders.collectFile results fileMatches
  return ⟨results, fileFeatureCount, all.processFeatureCounts⟩

variable {set} in
/-- What a run that returns went through: every process, then the file. -/
theorem findDynamicCapabilities_ok {freeze : DynamicFeatures} {orders : DynamicOrders}
    {caps : DynamicCapabilities} (h : findDynamicCapabilities set freeze orders = .ok caps) :
    ∃ all fileMatches,
      freeze.processes.entries.foldlM (visitProcess set orders freeze.globalFeatures)
        ⟨∅, ⟨∅, ∅, ∅⟩, []⟩ = .ok all ∧
      set.matchScopeResults .file ((seedFile freeze.fileFeatures freeze.globalFeatures).merge
        (processAndLowerFeatures set orders all)) .noAddress = .ok fileMatches ∧
      caps.results = extendMatches orders.collectFile (extendMatches orders.collectProcess
        (extendMatches orders.collectThread (extendMatches orders.collectSpan
          (extendMatches orders.collectCall ∅ all.lower.call) all.lower.span) all.lower.thread)
        all.process) fileMatches := by
  obtain ⟨all, hloop, h⟩ := bind_eq_ok.mp h
  obtain ⟨⟨fileMatches, fileFeatureCount⟩, hfile, h⟩ := bind_eq_ok.mp h
  obtain rfl := Except.ok.inj h
  obtain ⟨results, hmatch, hpair⟩ := bind_eq_ok.mp hfile
  obtain ⟨rfl, _⟩ := Prod.mk.inj (Except.ok.inj hpair)
  exact ⟨all, results, hloop, hmatch, rfl⟩

end

end CapaX
