import CapaX.Graphs.Dfs
import CapaX.Graphs.Worklist
import CapaX.Recovery.Flow
import Mathlib.Tactic.Tauto

/-
  Native flow discovery computes a least closed set. Each instruction contributes the same
  edges, references and suppressed call whenever it is reached (`followFlow_spec`), so a graph is
  given by the addresses visited (`Recorded`); and the queue keeps the frontier of a worklist walk
  (`Explored`). `discoverEach_isLeast`: the instructions are the least set that holds the starts and
  is closed under the walk, and the order of the starts leaves no trace.
-/

namespace CapaX.Recovery

open Collections Graphs.Worklist

/-! ## Cross-references as sets of sources -/

theorem mem_sources_pushXref {index : Xrefs} {target source t s : UInt64} :
    s ∈ (pushXref index target source).sources t ↔
      s ∈ index.sources t ∨ s = source ∧ t = target := by
  unfold pushXref Xrefs.sources
  rw [OrdMap.get?_upsert]
  by_cases ht : t = target
  · subst ht
    by_cases hs : source ∈ (index.get? t).getD []
    · simp only [if_true, if_pos hs, Option.getD_some, and_true]
      constructor
      · exact Or.inl
      · rintro (h | rfl)
        · exact h
        · exact hs
    · simp [hs]
  · simp [ht]

theorem mem_sources_removeCodeReference {codeXrefs : Xrefs} {source target t s : UInt64} :
    s ∈ (removeCodeReference codeXrefs source target).sources t ↔
      s ∈ codeXrefs.sources t ∧ ¬(s = source ∧ t = target) := by
  unfold removeCodeReference Xrefs.sources
  cases hold : codeXrefs.get? target with
  | none =>
    refine (and_iff_left_of_imp fun h => ?_).symm
    rintro ⟨-, rfl⟩
    rw [hold] at h
    exact List.not_mem_nil h
  | some sources =>
    dsimp only
    split
    · next hempty =>
      rw [OrdMap.get?_erase]
      by_cases ht : t = target
      · subst ht
        simp only [if_true, Option.getD_none, List.not_mem_nil, hold, Option.getD_some, false_iff,
          and_true, not_and, not_not]
        intro hs
        by_contra hne
        have hkept : s ∈ sources.filter fun address => decide (address ≠ source) :=
          List.mem_filter.mpr ⟨hs, decide_eq_true hne⟩
        rw [List.isEmpty_iff.mp hempty] at hkept
        exact List.not_mem_nil hkept
      · simp [ht]
    · rw [OrdMap.get?_upsert]
      by_cases ht : t = target
      · subst ht
        simp [hold]
      · simp [ht]

variable {A : Architecture}

theorem pushCodeXrefs_spec (targets : List UInt64) (w : Walk A) (source : UInt64) :
    (w.pushCodeXrefs targets source).successors = w.successors ∧
      (w.pushCodeXrefs targets source).instructions = w.instructions ∧
      (w.pushCodeXrefs targets source).noreturnCalls = w.noreturnCalls ∧
      ∀ t s, s ∈ (w.pushCodeXrefs targets source).codeXrefs.sources t ↔
        s ∈ w.codeXrefs.sources t ∨ s = source ∧ t ∈ targets := by
  induction targets generalizing w with
  | nil => exact ⟨rfl, rfl, rfl, fun t s => by simp [Walk.pushCodeXrefs]⟩
  | cons target targets ih =>
    obtain ⟨hsucc, hinsn, hcalls, hsources⟩ := ih (w.pushCodeXref target source)
    refine ⟨hsucc, hinsn, hcalls, fun t s => (hsources t s).trans ?_⟩
    have hpush : s ∈ (w.pushCodeXref target source).codeXrefs.sources t ↔
        s ∈ w.codeXrefs.sources t ∨ s = source ∧ t = target := mem_sources_pushXref
    rw [hpush, List.mem_cons]
    tauto

/-! ## What an instruction contributes -/

variable (inputs : FlowInputs A)

/-- The walk may go through the address: it is executable and decodes, to no privileged barrier. -/
def Walkable (image : LoadedImage A) (address : UInt64) : Prop :=
  image.isExecutableAddress address = true ∧
    ∃ insn, image.decodeAt address = .ok insn ∧ insn.isPrivilegedBarrier = false

/-- A direct call of a known no-return address that is not just the next instruction. -/
def endsFlow (insn : DecodedInstruction A) : Bool :=
  decide (insn.flow = .call) && insn.directTarget.any fun target =>
    decide (target ≠ insn.nextAddress) && decide (target ∈ inputs.knownNoreturn)

/-- The resolved targets of an indirect branch: none for the tail of an import thunk. -/
def branchTargets (insn : DecodedInstruction A) : List UInt64 :=
  if insn.memoryTarget.any inputs.image.isImportSlot then []
  else jumpTableTargets inputs.image insn

/-- Where the walk goes on from an instruction. -/
def walkTargets (insn : DecodedInstruction A) : List UInt64 :=
  match insn.flow with
  | .next | .indirectCall => [insn.nextAddress]
  | .call => if endsFlow inputs insn then [] else [insn.nextAddress]
  | .conditionalBranch => insn.nextAddress :: insn.directTarget.toList
  | .unconditionalBranch => insn.directTarget.toList
  | .indirectBranch => branchTargets inputs insn
  | .return | .terminal => []

/-- The targets an instruction refers to as code. -/
def references (insn : DecodedInstruction A) : List UInt64 :=
  match insn.flow with
  | .call => if endsFlow inputs insn then [] else insn.directTarget.toList
  | .conditionalBranch | .unconditionalBranch => insn.directTarget.toList
  | .indirectBranch => branchTargets inputs insn
  | .next | .indirectCall | .return | .terminal => []

/-- The successor edges of an instruction. -/
def successorEdges (insn : DecodedInstruction A) : List Edge :=
  match insn.flow with
  | .next | .indirectCall => [⟨insn.nextAddress, .fallthrough⟩]
  | .call => if endsFlow inputs insn then [] else [⟨insn.nextAddress, .fallthrough⟩]
  | .conditionalBranch =>
    ⟨insn.nextAddress, .fallthrough⟩ :: insn.directTarget.toList.map fun target =>
      ⟨target, .branch⟩
  | .unconditionalBranch => insn.directTarget.toList.map fun target => ⟨target, .branch⟩
  | .indirectBranch =>
    if insn.isPointerJump then []
    else (branchTargets inputs insn).map fun target => ⟨target, .jumpTable⟩
  | .return | .terminal => []

/-- The walk goes on from an address as its instruction says. -/
def follows (address : UInt64) : List UInt64 :=
  match inputs.image.decodeAt address with
  | .ok insn => walkTargets inputs insn
  | .error _ => []

/-- `r` is what the walk makes of an instruction: the new queue and state. -/
structure Contributes (address : UInt64) (insn : DecodedInstruction A) (pending : List UInt64)
    (w : Walk A) (r : List UInt64 × Walk A) : Prop where
  queue : ∀ b, b ∈ r.1 ↔ b ∈ walkTargets inputs insn ∨ b ∈ pending
  instructions : r.2.instructions = w.instructions
  successors : r.2.successors = w.successors.upsert address fun _ => successorEdges inputs insn
  noreturnCalls : ∀ a, a ∈ r.2.noreturnCalls ↔
    a ∈ w.noreturnCalls ∨ a = address ∧ endsFlow inputs insn = true
  sources : ∀ t s, s ∈ r.2.codeXrefs.sources t ↔
    s ∈ w.codeXrefs.sources t ∨ s = address ∧ t ∈ references inputs insn

variable {inputs} {address : UInt64} {insn : DecodedInstruction A} {pending : List UInt64}
  {w w' : Walk A}

/-- An arm that ends by recording the successors of the instruction. -/
theorem contributes_setSuccessors {queue : List UInt64} {edges : List Edge}
    (hqueue : ∀ b, b ∈ queue ↔ b ∈ walkTargets inputs insn ∨ b ∈ pending)
    (hinstructions : w'.instructions = w.instructions) (hsuccessors : w'.successors = w.successors)
    (hedges : edges = successorEdges inputs insn)
    (hcalls : ∀ a, a ∈ w'.noreturnCalls ↔
      a ∈ w.noreturnCalls ∨ a = address ∧ endsFlow inputs insn = true)
    (hsources : ∀ t s, s ∈ w'.codeXrefs.sources t ↔
      s ∈ w.codeXrefs.sources t ∨ s = address ∧ t ∈ references inputs insn) :
    Contributes inputs address insn pending w (queue, w'.setSuccessors address edges) where
  queue := hqueue
  instructions := hinstructions
  successors := by
    rw [← hedges, ← hsuccessors]
    rfl
  noreturnCalls := hcalls
  sources := hsources

theorem endsFlow_eq_false (hflow : insn.flow ≠ .call) : endsFlow inputs insn = false := by
  simp [endsFlow, hflow]

/-- An instruction that is no suppressed call leaves the suppressed calls as they are. -/
theorem noreturnCalls_kept (hends : endsFlow inputs insn = false) (a : UInt64) :
    a ∈ w.noreturnCalls ↔ a ∈ w.noreturnCalls ∨ a = address ∧ endsFlow inputs insn = true := by
  simp [hends]

theorem sources_kept (hrefs : references inputs insn = []) (t s : UInt64) :
    s ∈ w.codeXrefs.sources t ↔
      s ∈ w.codeXrefs.sources t ∨ s = address ∧ t ∈ references inputs insn := by
  simp [hrefs]

theorem sources_pushed {target : UInt64} (hrefs : references inputs insn = [target])
    (t s : UInt64) : s ∈ (w.pushCodeXref target address).codeXrefs.sources t ↔
      s ∈ w.codeXrefs.sources t ∨ s = address ∧ t ∈ references inputs insn := by
  rw [hrefs, List.mem_singleton]
  exact mem_sources_pushXref

/-- A call without a target falls through. -/
theorem followCall_untargeted
    (htarget : (if insn.flow = .call then insn.directTarget else none) = none)
    (hflow : insn.flow = .call ∨ insn.flow = .indirectCall) :
    Contributes inputs address insn pending w (followCall inputs address insn pending w) := by
  have hends : endsFlow inputs insn = false := by
    rcases hflow with hflow | hflow
    · rw [if_pos hflow] at htarget
      simp [endsFlow, htarget]
    · exact endsFlow_eq_false (by rw [hflow]; decide)
  have hwalk : walkTargets inputs insn = [insn.nextAddress] := by
    rcases hflow with hflow | hflow <;> simp [walkTargets, hflow, hends]
  have hedges : successorEdges inputs insn = [⟨insn.nextAddress, .fallthrough⟩] := by
    rcases hflow with hflow | hflow <;> simp [successorEdges, hflow, hends]
  have hrefs : references inputs insn = [] := by
    rcases hflow with hflow | hflow
    · rw [if_pos hflow] at htarget
      simp [references, hflow, hends, htarget]
    · simp [references, hflow]
  unfold followCall
  simp only [htarget]
  -- the diagnostic touches nothing the graph is read by
  split <;>
    exact contributes_setSuccessors (fun b => by rw [hwalk]; simp) rfl rfl hedges.symm
      (fun a => noreturnCalls_kept hends a) (fun t s => sources_kept hrefs t s)

/-- A direct call records its reference; a suppressed one takes it back, with the fallthrough. -/
theorem followCall_targeted {target : UInt64} (hflow : insn.flow = .call)
    (htarget : insn.directTarget = some target)
    (hnew : ∀ t, address ∉ w.codeXrefs.sources t) :
    Contributes inputs address insn pending w (followCall inputs address insn pending w) := by
  have hends : endsFlow inputs insn = true ↔
      target ≠ insn.nextAddress ∧ target ∈ inputs.knownNoreturn := by
    simp [endsFlow, hflow, htarget]
  unfold followCall
  simp only [hflow, htarget, if_true, reduceCtorEq, false_and, if_false]
  by_cases hsuppressed : target ≠ insn.nextAddress ∧ target ∈ inputs.knownNoreturn
  · have hends' : endsFlow inputs insn = true := hends.mpr hsuppressed
    rw [if_pos hsuppressed, if_pos hsuppressed.1]
    refine contributes_setSuccessors (fun b => ?_) rfl rfl ?_ (fun a => ?_) fun t s => ?_
    · simp [walkTargets, hflow, hends']
    · simp [successorEdges, hflow, hends']
    · have hmem : a ∈ w.noreturnCalls.insert address ↔ a = address ∨ a ∈ w.noreturnCalls :=
        OrdSet.mem_insert
      rw [hends', and_iff_left rfl, or_comm]
      exact hmem
    · have hremoved : s ∈ (removeCodeReference (pushXref w.codeXrefs target address)
          address target).sources t ↔ s ∈ w.codeXrefs.sources t := by
        rw [mem_sources_removeCodeReference, mem_sources_pushXref]
        constructor
        · rintro ⟨h | h, hne⟩
          · exact h
          · exact absurd h hne
        · intro h
          refine ⟨Or.inl h, ?_⟩
          rintro ⟨rfl, rfl⟩
          exact hnew _ h
      have hrefs : references inputs insn = [] := by simp [references, hflow, hends']
      rw [hrefs]
      exact hremoved.trans (by simp)
  · have hends' : endsFlow inputs insn = false := by
      rw [← Bool.not_eq_true, hends]
      exact hsuppressed
    have hrefs : references inputs insn = [target] := by
      simp [references, hflow, hends', htarget]
    rw [if_neg hsuppressed]
    split <;>
      exact contributes_setSuccessors (fun b => by simp [walkTargets, hflow, hends']) rfl rfl
        (by simp [successorEdges, hflow, hends']) (fun a => noreturnCalls_kept hends' a)
        (fun t s => sources_pushed hrefs t s)

theorem followIndirectBranch_spec (hflow : insn.flow = .indirectBranch)
    (hswitch : ∀ g i, inputs.switchTargets g i = none) :
    Contributes inputs address insn pending w
      (followIndirectBranch inputs address insn pending w) := by
  have hends : endsFlow inputs insn = false := endsFlow_eq_false (by rw [hflow]; decide)
  have hwalk : walkTargets inputs insn = branchTargets inputs insn := by simp [walkTargets, hflow]
  have hrefs : references inputs insn = branchTargets inputs insn := by simp [references, hflow]
  have hedges : successorEdges inputs insn = if insn.isPointerJump then [] else
      (branchTargets inputs insn).map fun target => ⟨target, .jumpTable⟩ := by
    simp [successorEdges, hflow]
  unfold followIndirectBranch
  by_cases himport : insn.memoryTarget.any inputs.image.isImportSlot = true
  · have hnone : branchTargets inputs insn = [] := by rw [branchTargets, if_pos himport]
    rw [if_pos himport]
    refine contributes_setSuccessors (fun b => ?_) rfl rfl ?_ (fun a => noreturnCalls_kept hends a)
      fun t s => sources_kept (hrefs.trans hnone) t s
    · simp [hwalk, hnone]
    · simp [hedges, hnone]
  · have htargets : branchTargets inputs insn = jumpTableTargets inputs.image insn := by
      rw [branchTargets, if_neg himport]
    rw [if_neg himport]
    simp only [hswitch, Option.getD_none, ← htargets]
    obtain ⟨hsucc, hinsn, hcalls, hsources⟩ :=
      pushCodeXrefs_spec (branchTargets inputs insn) w address
    have hkept (a : UInt64) :
        a ∈ (w.pushCodeXrefs (branchTargets inputs insn) address).noreturnCalls ↔
          a ∈ w.noreturnCalls ∨ a = address ∧ endsFlow inputs insn = true := by
      rw [hcalls]
      exact noreturnCalls_kept hends a
    split
    · next hjump =>
      refine contributes_setSuccessors (fun b => ?_) hinsn hsucc ?_ hkept ?_
      · rw [hwalk, List.mem_append, or_comm]
      · rw [hedges, if_pos hjump.2]
      · rw [hrefs]
        exact hsources
    · next hjump =>
      split
      · next hnone =>
        refine contributes_setSuccessors (fun b => ?_) rfl rfl ?_
          (fun a => noreturnCalls_kept hends a) fun t s => sources_kept (hrefs.trans hnone) t s
        · simp [hwalk, hnone]
        · simp [hedges, hnone]
      · next hsome =>
        refine contributes_setSuccessors (fun b => ?_) hinsn hsucc ?_ hkept ?_
        · rw [hwalk, List.mem_append, or_comm]
        · rw [hedges, if_neg fun hp => hjump ⟨hsome, hp⟩]
        · rw [hrefs]
          exact hsources

/-- The call arm, with a target or without. -/
theorem followCall_spec (hflow : insn.flow = .call ∨ insn.flow = .indirectCall)
    (hnew : ∀ t, address ∉ w.codeXrefs.sources t) :
    Contributes inputs address insn pending w (followCall inputs address insn pending w) := by
  by_cases hcall : insn.flow = .call
  · cases htarget : insn.directTarget with
    | none => exact followCall_untargeted (by rw [if_pos hcall, htarget]) hflow
    | some target => exact followCall_targeted hcall htarget hnew
  · exact followCall_untargeted (if_neg hcall) hflow

/-- Whatever was recorded before, an instruction met for the first time contributes the same. -/
theorem followFlow_spec (hswitch : ∀ g i, inputs.switchTargets g i = none)
    (hnew : ∀ t, address ∉ w.codeXrefs.sources t) :
    Contributes inputs address insn pending w (followFlow inputs address insn pending w) := by
  have hcalls (hflow : insn.flow ≠ .call) (w : Walk A) (a : UInt64) : a ∈ w.noreturnCalls ↔
      a ∈ w.noreturnCalls ∨ a = address ∧ endsFlow inputs insn = true :=
    noreturnCalls_kept (endsFlow_eq_false hflow) a
  unfold followFlow
  dsimp only
  split
  · next hflow =>
    exact contributes_setSuccessors (fun b => by simp [walkTargets, hflow]) rfl rfl
      (by simp [successorEdges, hflow]) (hcalls (by rw [hflow]; decide) w)
      (sources_kept (by simp [references, hflow]))
  · next hflow => exact followCall_spec (Or.inl hflow) hnew
  · next hflow => exact followCall_spec (Or.inr hflow) hnew
  · next hflow =>
    split
    · next htarget =>
      exact contributes_setSuccessors (fun b => by simp [walkTargets, hflow, htarget, or_comm])
        rfl rfl (by simp [successorEdges, hflow, htarget]) (hcalls (by rw [hflow]; decide) w)
        (sources_kept (by simp [references, hflow, htarget]))
    · next target htarget =>
      refine contributes_setSuccessors (fun b => ?_) rfl rfl
        (by simp [successorEdges, hflow, htarget])
        (hcalls (by rw [hflow]; decide) (w.pushCodeXref target address))
        (sources_pushed (by simp [references, hflow, htarget]))
      simp only [walkTargets, hflow, htarget, Option.toList_some, List.mem_append, List.mem_cons,
        List.not_mem_nil, or_false]
      tauto
  · next hflow =>
    split
    · next htarget =>
      exact contributes_setSuccessors (fun b => by simp [walkTargets, hflow, htarget])
        rfl rfl (by simp [successorEdges, hflow, htarget]) (hcalls (by rw [hflow]; decide) w)
        (sources_kept (by simp [references, hflow, htarget]))
    · next target htarget =>
      have hswap : (w.setSuccessors address [⟨target, .branch⟩]).pushCodeXref target address =
          (w.pushCodeXref target address).setSuccessors address [⟨target, .branch⟩] := rfl
      rw [hswap]
      exact contributes_setSuccessors
        (fun b => by simp [walkTargets, hflow, htarget, or_comm]) rfl rfl
        (by simp [successorEdges, hflow, htarget])
        (hcalls (by rw [hflow]; decide) (w.pushCodeXref target address))
        (sources_pushed (by simp [references, hflow, htarget]))
  · next hflow => exact followIndirectBranch_spec hflow hswitch
  all_goals
    next hflow =>
      exact contributes_setSuccessors (fun b => by simp [walkTargets, hflow]) rfl rfl
        (by simp [successorEdges, hflow]) (hcalls (by rw [hflow]; decide) w)
        (sources_kept (by simp [references, hflow]))

/-! ## What a graph records -/

/-- The addresses the graph has successors of. -/
def visited (graph : FlowGraph A) : Set UInt64 :=
  {address | (graph.successors.get? address).isSome = true}

theorem mem_visited {graph : FlowGraph A} {address : UInt64} :
    address ∈ visited graph ↔ (graph.successors.get? address).isSome = true := Iff.rfl

variable (inputs) in
/-- The instruction that the image decodes at a visited address. -/
def Visits (graph : FlowGraph A) (address : UInt64) (insn : DecodedInstruction A) : Prop :=
  address ∈ visited graph ∧ inputs.image.decodeAt address = .ok insn

variable (inputs) in
/-- A graph is the record of the contributions of its visited addresses. -/
structure Recorded (graph : FlowGraph A) : Prop where
  decoded : ∀ a ∈ visited graph, ∃ insn, inputs.image.decodeAt a = .ok insn
  instructions : ∀ a insn, graph.instructions.get? a = some insn ↔ Visits inputs graph a insn
  successors : ∀ a edges, graph.successors.get? a = some edges ↔
    ∃ insn, Visits inputs graph a insn ∧ edges = successorEdges inputs insn
  noreturnCalls : ∀ a, a ∈ graph.noreturnCalls ↔
    ∃ insn, Visits inputs graph a insn ∧ endsFlow inputs insn = true
  sources : ∀ t s, s ∈ graph.codeXrefs.sources t ↔
    ∃ insn, Visits inputs graph s insn ∧ t ∈ references inputs insn

theorem recorded_empty : Recorded inputs (FlowGraph.empty : FlowGraph A) := by
  have hnone (a : UInt64) : a ∉ visited (FlowGraph.empty : FlowGraph A) := Bool.false_ne_true
  refine ⟨fun a ha => absurd ha (hnone a), fun a insn => ?_, fun a edges => ?_, fun a => ?_,
    fun t s => ?_⟩
  · exact iff_of_false (by simp [FlowGraph.empty]) fun h => hnone a h.1
  · exact iff_of_false (by simp [FlowGraph.empty]) fun ⟨_, h, _⟩ => hnone a h.1
  · exact iff_of_false (OrdSet.not_mem_empty a) fun ⟨_, h, _⟩ => hnone a h.1
  · exact iff_of_false List.not_mem_nil fun ⟨_, h, _⟩ => hnone s h.1

theorem Recorded.mem_keys_iff {graph : FlowGraph A} (h : Recorded inputs graph) {a : UInt64} :
    a ∈ graph.instructions.keys ↔ a ∈ visited graph := by
  rw [OrdMap.mem_keys_iff, Option.isSome_iff_exists]
  constructor
  · rintro ⟨insn, hinsn⟩
    exact ((h.instructions a insn).mp hinsn).1
  · intro ha
    obtain ⟨insn, hdecode⟩ := h.decoded a ha
    exact ⟨insn, (h.instructions a insn).mpr ⟨ha, hdecode⟩⟩

/-- Two records of the same visited addresses are the same, up to the order of sources. -/
theorem Recorded.eq_of_visited {g g' : FlowGraph A} (h : Recorded inputs g)
    (h' : Recorded inputs g') (hv : visited g = visited g') :
    g.instructions = g'.instructions ∧ g.successors = g'.successors ∧
      g.noreturnCalls = g'.noreturnCalls ∧
      ∀ t s, s ∈ g.codeXrefs.sources t ↔ s ∈ g'.codeXrefs.sources t := by
  have hvisits (a : UInt64) (insn : DecodedInstruction A) :
      Visits inputs g a insn ↔ Visits inputs g' a insn := by
    rw [Visits, Visits, hv]
  refine ⟨OrdMap.ext_get? fun a => Option.ext fun insn => ?_,
    OrdMap.ext_get? fun a => Option.ext fun edges => ?_, OrdSet.ext_mem fun a => ?_, fun t s => ?_⟩
  · rw [h.instructions, h'.instructions, hvisits]
  · simp only [h.successors, h'.successors, hvisits]
  · simp only [h.noreturnCalls, h'.noreturnCalls, hvisits]
  · simp only [h.sources, h'.sources, hvisits]

variable {starts : Set UInt64} {queue : List UInt64} {r : List UInt64 × Walk A}

theorem visited_contributes
    (h : Contributes inputs address insn pending (w.define address insn) r) :
    visited r.2.toFlowGraph = insert address (visited w.toFlowGraph) := by
  ext a
  have hsucc : r.2.successors = w.successors.upsert address fun _ => successorEdges inputs insn :=
    h.successors
  show (r.2.successors.get? a).isSome = true ↔ a = address ∨ (w.successors.get? a).isSome = true
  rw [hsucc, OrdMap.get?_upsert]
  by_cases ha : a = address <;> simp [ha]

/-- Recording one more instruction. -/
theorem Recorded.step (hw : Recorded inputs w.toFlowGraph)
    (hnew : address ∉ visited w.toFlowGraph) (hdecode : inputs.image.decodeAt address = .ok insn)
    (h : Contributes inputs address insn pending (w.define address insn) r) :
    Recorded inputs r.2.toFlowGraph := by
  have hvisited := visited_contributes h
  have hvisits (a : UInt64) (i : DecodedInstruction A) : Visits inputs r.2.toFlowGraph a i ↔
      a = address ∧ i = insn ∨ Visits inputs w.toFlowGraph a i := by
    rw [Visits, Visits, hvisited, Set.mem_insert_iff, or_and_right]
    refine or_congr_left (and_congr_right fun ha => ?_)
    rw [ha, hdecode, Except.ok.injEq, eq_comm]
  have hexists {p : DecodedInstruction A → Prop} (a : UInt64) :
      (∃ i, Visits inputs r.2.toFlowGraph a i ∧ p i) ↔
        (∃ i, Visits inputs w.toFlowGraph a i ∧ p i) ∨ a = address ∧ p insn := by
    simp only [hvisits]
    constructor
    · rintro ⟨i, ⟨rfl, rfl⟩ | hi, hp⟩
      · exact Or.inr ⟨rfl, hp⟩
      · exact Or.inl ⟨i, hi, hp⟩
    · rintro (⟨i, hi, hp⟩ | ⟨rfl, hp⟩)
      · exact ⟨i, Or.inr hi, hp⟩
      · exact ⟨insn, Or.inl ⟨rfl, rfl⟩, hp⟩
  have hunvisited (i : DecodedInstruction A) : ¬Visits inputs w.toFlowGraph address i :=
    fun hi => hnew hi.1
  constructor
  · intro a ha
    rw [hvisited] at ha
    rcases ha with rfl | ha
    · exact ⟨insn, hdecode⟩
    · exact hw.decoded a ha
  · intro a i
    have hinsn : r.2.instructions = w.instructions.upsert address fun old => old.getD insn :=
      h.instructions
    rw [hinsn, OrdMap.get?_upsert, hvisits]
    by_cases ha : a = address
    · subst ha
      have hnone : w.instructions.get? a = none :=
        Option.eq_none_iff_forall_ne_some.mpr fun j hj => hunvisited j ((hw.instructions a j).mp hj)
      simp [hnone, hunvisited, eq_comm]
    · simp [ha, hw.instructions]
  · intro a edges
    have hsucc : r.2.successors =
        w.successors.upsert address fun _ => successorEdges inputs insn := h.successors
    rw [hsucc, OrdMap.get?_upsert, hexists]
    by_cases ha : a = address
    · subst ha
      simp [hunvisited, eq_comm]
    · simp [ha, hw.successors]
  · intro a
    have hcalls : a ∈ r.2.noreturnCalls ↔
        a ∈ w.noreturnCalls ∨ a = address ∧ endsFlow inputs insn = true := h.noreturnCalls a
    rw [hcalls, hexists, hw.noreturnCalls]
  · intro t s
    have hsources : s ∈ r.2.codeXrefs.sources t ↔
        s ∈ w.codeXrefs.sources t ∨ s = address ∧ t ∈ references inputs insn := h.sources t s
    rw [hsources, hexists, hw.sources]

/-! ## The walk -/

variable (inputs) in
/-- The walk may enter an address: no data barrier is in the way, and it is walkable. -/
def Enters (address : UInt64) : Prop :=
  inData inputs.codeBarriers address = false ∧ Walkable inputs.image address

variable (inputs) in
/-- A walk in progress: what it recorded, and what its queue still owes. -/
structure Explored (starts : Set UInt64) (queue : List UInt64) (graph : FlowGraph A) : Prop where
  recorded : Recorded inputs graph
  frontier : Frontier (Enters inputs) (follows inputs) starts (visited graph) queue

theorem Explored.skip {graph : FlowGraph A} (h : Explored inputs starts (address :: pending) graph)
    (ha : Enters inputs address → address ∈ visited graph) :
    Explored inputs starts pending graph :=
  ⟨h.recorded, h.frontier.skip ha⟩

/-- Diagnostics are no part of what a graph records. -/
theorem Explored.diagnose (h : Explored inputs starts queue w.toFlowGraph) (message : String) :
    Explored inputs starts queue (w.diagnose address message).toFlowGraph :=
  ⟨⟨h.recorded.decoded, h.recorded.instructions, h.recorded.successors, h.recorded.noreturnCalls,
    h.recorded.sources⟩, h.frontier⟩

/-- A path the inner loop does not leave is at a new executable address, clear of barriers. -/
theorem not_visited_of_passes (hpasses : stopsAt inputs w address = false) :
    address ∉ visited w.toFlowGraph ∧ inputs.image.isExecutableAddress address = true := by
  simp only [stopsAt, Bool.or_eq_false_iff, Bool.not_eq_false'] at hpasses
  obtain ⟨⟨-, hunvisited⟩, hexec⟩ := hpasses
  exact ⟨by simp [mem_visited, hunvisited], hexec⟩

/-- No reference starts at an address that is not visited yet. -/
theorem Explored.followFlow_spec (hswitch : ∀ g i, inputs.switchTargets g i = none)
    (h : Explored inputs starts (address :: pending) w.toFlowGraph)
    (hpasses : stopsAt inputs w address = false) :
    Contributes inputs address insn pending (w.define address insn)
      (followFlow inputs address insn pending (w.define address insn)) := by
  refine CapaX.Recovery.followFlow_spec hswitch fun t hs => ?_
  obtain ⟨_, hvisits, -⟩ := (h.recorded.sources t address).mp hs
  exact (not_visited_of_passes hpasses).1 hvisits.1

theorem visited_followFlow (hswitch : ∀ g i, inputs.switchTargets g i = none)
    (h : Explored inputs starts (address :: pending) w.toFlowGraph)
    (hpasses : stopsAt inputs w address = false) :
    visited (followFlow inputs address insn pending (w.define address insn)).2.toFlowGraph =
      insert address (visited w.toFlowGraph) :=
  visited_contributes (h.followFlow_spec hswitch hpasses)

theorem Explored.visit (hswitch : ∀ g i, inputs.switchTargets g i = none)
    (h : Explored inputs starts (address :: pending) w.toFlowGraph)
    (hpasses : stopsAt inputs w address = false)
    (hdecode : inputs.image.decodeAt address = .ok insn)
    (hbarrier : insn.isPrivilegedBarrier = false) :
    Explored inputs starts (followFlow inputs address insn pending (w.define address insn)).1
      (followFlow inputs address insn pending (w.define address insn)).2.toFlowGraph := by
  have hspec : Contributes inputs address insn pending (w.define address insn)
      (followFlow inputs address insn pending (w.define address insn)) :=
    h.followFlow_spec hswitch hpasses
  refine ⟨h.recorded.step (not_visited_of_passes hpasses).1 hdecode hspec, ?_⟩
  rw [visited_contributes hspec]
  have henters : Enters inputs address := by
    have hexec := (not_visited_of_passes hpasses).2
    simp only [stopsAt, Bool.or_eq_false_iff] at hpasses
    exact ⟨hpasses.1.1, hexec, insn, hdecode, hbarrier⟩
  refine h.frontier.visit henters fun b => ?_
  rw [follows, hdecode]
  exact hspec.queue b

theorem not_enters_of_error {message : String}
    (hdecode : inputs.image.decodeAt address = .error message) : ¬Enters inputs address := by
  rintro ⟨-, -, insn, hinsn, -⟩
  rw [hdecode] at hinsn
  cases hinsn

theorem not_enters_of_barrier (hdecode : inputs.image.decodeAt address = .ok insn)
    (hbarrier : insn.isPrivilegedBarrier = true) : ¬Enters inputs address := by
  rintro ⟨-, -, insn', hinsn, hbarrier'⟩
  rw [hdecode, Except.ok.injEq] at hinsn
  rw [← hinsn, hbarrier] at hbarrier'
  cases hbarrier'

/-- A path that the inner loop leaves before decoding owes nothing. -/
theorem visited_of_stopsAt (hstops : stopsAt inputs w address = true)
    (he : Enters inputs address) : address ∈ visited w.toFlowGraph := by
  obtain ⟨hdata, hexec, -⟩ := he
  rw [mem_visited]
  simpa [stopsAt, hdata, hexec] using hstops

theorem runTasks_explored (hswitch : ∀ g i, inputs.switchTargets g i = none) {start : UInt64}
    {rest : Option (List UInt64 → Walk A → Outcome A)}
    (hrest : ∀ continue_, rest = some continue_ → ∀ queue w w',
      Explored inputs starts queue w.toFlowGraph → continue_ queue w = .finished w' →
      Explored inputs starts [] w'.toFlowGraph)
    (h : Explored inputs starts queue w.toFlowGraph)
    (hrun : runTasks inputs start rest queue w = .finished w') :
    Explored inputs starts [] w'.toFlowGraph := by
  induction queue generalizing w with
  | nil =>
    rw [runTasks, Outcome.finished.injEq] at hrun
    exact hrun ▸ h
  | cons address pending ih =>
    unfold runTasks at hrun
    split at hrun
    · next hstops => exact ih (h.skip (visited_of_stopsAt hstops)) hrun
    · next hstops =>
      split at hrun
      · cases hrun
      · next continue_ =>
        split at hrun
        · next message hdecode =>
          exact ih ((h.skip fun he => absurd he (not_enters_of_error hdecode)).diagnose message)
            hrun
        · next insn hdecode =>
          split at hrun
          · next hbarrier =>
            exact ih ((h.skip fun he => absurd he
              (not_enters_of_barrier hdecode hbarrier)).diagnose _) hrun
          · next hbarrier =>
            exact hrest continue_ rfl _ _ _ (h.visit hswitch (Bool.eq_false_iff.mpr hstops) hdecode
              (Bool.eq_false_iff.mpr hbarrier)) hrun

theorem discoverFlow_explored (hswitch : ∀ g i, inputs.switchTargets g i = none) {start : UInt64}
    {budget : Nat} (h : Explored inputs starts queue w.toFlowGraph)
    (hrun : discoverFlow inputs start budget queue w = .finished w') :
    Explored inputs starts [] w'.toFlowGraph := by
  induction budget generalizing queue w w' with
  | zero => exact runTasks_explored hswitch (fun _ hrest => by cases hrest) h hrun
  | succ budget ih =>
    refine runTasks_explored hswitch (fun continue_ hrest queue w w' hw hgoes => ?_) h hrun
    cases hrest
    exact ih hw hgoes

/-- The next start begins with the graph so far and no callees. -/
theorem Explored.restart {graph : FlowGraph A} (h : Explored inputs starts [] graph)
    (start : UInt64) : Explored inputs (insert start starts) [start]
      ({ graph with calls := ∅ } : Walk A).toFlowGraph :=
  ⟨h.recorded, h.frontier.restart start⟩

theorem discoverEach_explored (hswitch : ∀ g i, inputs.switchTargets g i = none)
    {graph graph' : FlowGraph A} {more : List UInt64} (h : Explored inputs starts [] graph)
    (hrun : discoverEach inputs more graph = some graph') :
    Explored inputs (starts ∪ {a | a ∈ more}) [] graph' := by
  induction more generalizing starts graph with
  | nil =>
    rw [discoverEach, Option.some.injEq] at hrun
    subst hrun
    simpa using h
  | cons start more ih =>
    unfold discoverEach at hrun
    split at hrun
    · next w hwalk =>
      have hrest := ih (discoverFlow_explored hswitch (h.restart start) hwalk) hrun
      have hstarts : insert start starts ∪ {a | a ∈ more} = starts ∪ {a | a ∈ start :: more} := by
        ext a
        simp only [Set.mem_union, Set.mem_insert_iff, Set.mem_ofPred_eq, List.mem_cons]
        tauto
      rwa [hstarts] at hrest
    · cases hrun

theorem explored_of_discoverEach (hswitch : ∀ g i, inputs.switchTargets g i = none)
    {more : List UInt64} {graph : FlowGraph A}
    (hrun : discoverEach inputs more .empty = some graph) :
    Explored inputs {a | a ∈ more} [] graph := by
  have hnone : visited (FlowGraph.empty : FlowGraph A) = ∅ :=
    Set.eq_empty_iff_forall_notMem.mpr fun _ => Bool.false_ne_true
  have hempty : Explored inputs ∅ [] (FlowGraph.empty : FlowGraph A) :=
    ⟨recorded_empty, by rw [hnone]; exact .empty⟩
  simpa using discoverEach_explored hswitch hempty hrun

/-! ## Walks that are not given up -/

/-- The addresses of a list the graph has no successors of yet. -/
def unvisited (known : List UInt64) (graph : FlowGraph A) : Nat :=
  (known.filter fun a => (graph.successors.get? a).isNone).length

/-- Each instruction recorded is one of finitely many. -/
theorem unvisited_visit_lt {known : List UInt64} (hmem : address ∈ known)
    (hnew : address ∉ visited w.toFlowGraph)
    (hvisited : visited w'.toFlowGraph = insert address (visited w.toFlowGraph)) :
    unvisited known w'.toFlowGraph < unvisited known w.toFlowGraph := by
  have hiff (a : UInt64) : (w'.successors.get? a).isSome = true ↔
      a = address ∨ (w.successors.get? a).isSome = true := by
    rw [← mem_visited, hvisited, Set.mem_insert_iff, mem_visited]
  apply Graphs.filter_length_lt _ hmem
  · have hsome : (w'.successors.get? address).isSome = true := (hiff address).mpr (Or.inl rfl)
    simpa [← Option.not_isSome] using hsome
  · simpa [mem_visited] using hnew
  · intro a ha
    have hnone : ¬(w'.successors.get? a).isSome = true := by simpa using ha
    rw [hiff, not_or] at hnone
    simpa using hnone.2

section

variable {known : List UInt64}
  (hknown : ∀ a, inputs.image.isExecutableAddress a = true → a ∈ known)
include hknown

theorem runTasks_finishes (hswitch : ∀ g i, inputs.switchTargets g i = none) {start : UInt64}
    {rest : Option (List UInt64 → Walk A → Outcome A)} {budget : Nat}
    (hrest : 0 < budget → ∃ continue_, rest = some continue_ ∧ ∀ queue w,
      Explored inputs starts queue w.toFlowGraph → unvisited known w.toFlowGraph < budget →
      ∃ w', continue_ queue w = .finished w')
    (h : Explored inputs starts queue w.toFlowGraph)
    (hbudget : unvisited known w.toFlowGraph ≤ budget) :
    ∃ w', runTasks inputs start rest queue w = .finished w' := by
  induction queue generalizing w with
  | nil => exact ⟨w, rfl⟩
  | cons address pending ih =>
    unfold runTasks
    split
    · next hstops => exact ih (h.skip (visited_of_stopsAt hstops)) hbudget
    · next hstops =>
      have hpasses : stopsAt inputs w address = false := Bool.eq_false_iff.mpr hstops
      obtain ⟨hnew, hexec⟩ := not_visited_of_passes hpasses
      have hlt : ∀ w' : Walk A,
          visited w'.toFlowGraph = insert address (visited w.toFlowGraph) →
          unvisited known w'.toFlowGraph < unvisited known w.toFlowGraph := fun _ =>
        unvisited_visit_lt (hknown address hexec) hnew
      have hpos : 0 < unvisited known w.toFlowGraph :=
        List.length_pos_of_mem (List.mem_filter.mpr
          ⟨hknown address hexec, by simpa [mem_visited] using hnew⟩)
      obtain ⟨continue_, rfl, hcontinue⟩ := hrest (by omega)
      dsimp only
      split
      · next message hdecode =>
        exact ih ((h.skip fun he => absurd he (not_enters_of_error hdecode)).diagnose message)
          hbudget
      · next insn hdecode =>
        split
        · next hbarrier =>
          exact ih ((h.skip fun he => absurd he
            (not_enters_of_barrier hdecode hbarrier)).diagnose _) hbudget
        · next hbarrier =>
          have hvisit := h.visit hswitch hpasses hdecode (Bool.eq_false_iff.mpr hbarrier)
          refine hcontinue _ _ hvisit ?_
          have hstep := hlt (followFlow inputs address insn pending (w.define address insn)).2
            (visited_followFlow hswitch h hpasses)
          omega

theorem discoverFlow_finishes (hswitch : ∀ g i, inputs.switchTargets g i = none)
    {start : UInt64} {budget : Nat} (h : Explored inputs starts queue w.toFlowGraph)
    (hbudget : unvisited known w.toFlowGraph ≤ budget) :
    ∃ w', discoverFlow inputs start budget queue w = .finished w' := by
  induction budget generalizing queue w with
  | zero => exact runTasks_finishes hknown hswitch (fun hpos => absurd hpos (by omega)) h hbudget
  | succ budget ih =>
    refine runTasks_finishes hknown hswitch (fun _ => ⟨_, rfl, fun queue w hw hlt => ?_⟩) h hbudget
    exact ih hw (by omega)

/-- An image with no more executable addresses than a walk may record: no walk is given up. -/
theorem discoverEach_finishes (hswitch : ∀ g i, inputs.switchTargets g i = none)
    (hlength : known.length ≤ maxInsnsPerFunction) {graph : FlowGraph A}
    (h : Explored inputs starts [] graph) (more : List UInt64) :
    ∃ graph', discoverEach inputs more graph = some graph' := by
  induction more generalizing starts graph with
  | nil => exact ⟨graph, rfl⟩
  | cons start more ih =>
    have hstart := h.restart start
    have hbudget : unvisited known graph ≤ maxInsnsPerFunction :=
      (List.length_filter_le _ known).trans hlength
    obtain ⟨w, hwalk⟩ := discoverFlow_finishes hknown hswitch hstart hbudget
    have hwalk' : discoverDirectFlow inputs graph start = .finished w := hwalk
    unfold discoverEach
    rw [hwalk']
    exact ih (discoverFlow_explored hswitch hstart hwalk)

end


/-! ## The least closed set -/

/-- Native mode: no code barriers, since only compatibility mode records any. -/
def nativeInputs (image : LoadedImage A) (knownNoreturn : OrdSet UInt64)
    (switchTargets : FlowGraph A → DecodedInstruction A → Option (List UInt64)) : FlowInputs A :=
  ⟨image, knownNoreturn, [], switchTargets⟩

theorem enters_native (image : LoadedImage A) (knownNoreturn : OrdSet UInt64)
    (switchTargets : FlowGraph A → DecodedInstruction A → Option (List UInt64)) :
    Enters (nativeInputs image knownNoreturn switchTargets) = Walkable image := by
  funext address
  simp [Enters, nativeInputs, inData, containsPoint, partitionPoint]

/-- Walks from any list of starts, none of them given up: the instructions found are the least set
    that holds every walkable start and all that the walk goes on to, and other lists of the same
    starts record the same successors, suppressed calls and sources of references. -/
theorem discoverEach_isLeast (image : LoadedImage A) (knownNoreturn : OrdSet UInt64)
    (switchTargets : FlowGraph A → DecodedInstruction A → Option (List UInt64))
    (hswitch : ∀ graph insn, switchTargets graph insn = none) (starts : List UInt64)
    (graph : FlowGraph A)
    (hrun : discoverEach (nativeInputs image knownNoreturn switchTargets) starts .empty =
      some graph) :
    IsLeast {s | Closed (Walkable image)
        (follows (nativeInputs image knownNoreturn switchTargets)) {a | a ∈ starts} s}
      {a | a ∈ graph.instructions.keys} ∧
    ∀ starts' graph', (∀ a, a ∈ starts' ↔ a ∈ starts) →
      discoverEach (nativeInputs image knownNoreturn switchTargets) starts' .empty =
        some graph' →
      graph'.successors = graph.successors ∧ graph'.noreturnCalls = graph.noreturnCalls ∧
        ∀ target source, source ∈ graph'.codeXrefs.sources target ↔
          source ∈ graph.codeXrefs.sources target := by
  have hexplored : Explored (nativeInputs image knownNoreturn switchTargets) {a | a ∈ starts} []
      graph := explored_of_discoverEach hswitch hrun
  have hkeys : {a | a ∈ graph.instructions.keys} = visited graph := by
    ext a
    exact hexplored.recorded.mem_keys_iff
  have hleast := hexplored.frontier.isLeast
  rw [enters_native, ← hkeys] at hleast
  refine ⟨hleast, fun starts' graph' hsame hrun' => ?_⟩
  have hexplored' : Explored (nativeInputs image knownNoreturn switchTargets) {a | a ∈ starts'} []
      graph' := explored_of_discoverEach hswitch hrun'
  have hstarts : {a | a ∈ starts'} = {a | a ∈ starts} := Set.ext hsame
  rw [hstarts] at hexplored'
  have hvisited : visited graph' = visited graph :=
    Set.ext fun a => hexplored'.frontier.visited_iff.trans hexplored.frontier.visited_iff.symm
  obtain ⟨-, hsucc, hcalls, hsources⟩ :=
    hexplored'.recorded.eq_of_visited hexplored.recorded hvisited
  exact ⟨hsucc, hcalls, hsources⟩

/-- Six bytes of code: a branch over a call that does not come back, to a return. -/
def branchOverCall : LoadedImage .x64 where
  sections := [⟨0x1000, 6, ⟨true, false, true⟩⟩]
  externalBindings := ∅
  uninitialized := []
  mappedBytes := [[0x74, 0x02, 0xe8, 0x90, 0xc3, 0xf4]]
  decodeAt address :=
    let plain : X86Instruction := ⟨.other "", none, 1⟩
    if address = 0x1000 then .ok ⟨0x1002, .conditionalBranch, some 0x1004, none, plain⟩
    else if address = 0x1002 then .ok ⟨0x1003, .call, some 0x1004, none, plain⟩
    else if address = 0x1003 then .ok ⟨0x1004, .next, none, none, plain⟩
    else if address = 0x1004 then .ok ⟨0x1005, .return, none, none, plain⟩
    else if address = 0x1005 then .ok ⟨0x1006, .terminal, none, none, ⟨.hlt, none, 1⟩⟩
    else .error "invalid instruction"

theorem discoverEach_isLeast_branchOverCall :
    ∃ graph graph',
      discoverEach (nativeInputs branchOverCall (.singleton 0x1004) fun _ _ => none)
        [0x1000, 0x1005] .empty = some graph ∧
      discoverEach (nativeInputs branchOverCall (.singleton 0x1004) fun _ _ => none)
        [0x1005, 0x1000] .empty = some graph' ∧
      IsLeast {s | Closed (Walkable branchOverCall)
          (follows (nativeInputs branchOverCall (.singleton 0x1004) fun _ _ => none))
          {a | a ∈ ([0x1000, 0x1005] : List UInt64)} s}
        {a | a ∈ graph.instructions.keys} ∧
      graph.noreturnCalls.toList = [0x1002] ∧ graph'.successors = graph.successors := by
  refine ⟨_, _, rfl, rfl, ?_, rfl, ?_⟩
  · exact (discoverEach_isLeast branchOverCall (.singleton 0x1004) (fun _ _ => none)
      (fun _ _ => rfl) [0x1000, 0x1005] _ rfl).1
  · exact ((discoverEach_isLeast branchOverCall (.singleton 0x1004) (fun _ _ => none)
      (fun _ _ => rfl) [0x1000, 0x1005] _ rfl).2 [0x1005, 0x1000] _
      (fun a => by simp [or_comm]) rfl).1

end CapaX.Recovery
