import CapaX.Emucode.State
import CapaX.Graphs.Reaching
import CapaX.Recovery.Views

/-
  The base of a guarded switch (`constant_before` of `switch.rs`): a register holds a constant
  before an instruction when every definition that reaches it is a `lea` of that constant. The
  search goes backwards over the instruction below and over the references of branches. It leaves
  out the references of calls, and an instruction that overlaps the one below; it asks nothing of
  function entries. `constantBefore_sound_of_complete` says that nothing else can make the constant
  wrong; a call can (`constantBefore_calledLoop`).
-/

namespace CapaX.Recovery.SwitchBase

open Collections Graphs.Reaching Emucode

/-! ## What the decoder reports -/

/-- `iced_x86::OpAccess` -/
inductive OpAccess
  | none | read | condRead | write | condWrite | readWrite | readCondWrite | noMemAccess
  deriving DecidableEq

def OpAccess.mayWrite : OpAccess → Bool
  | .write | .condWrite | .readWrite | .readCondWrite => true
  | _ => false

/-- What the decoder reports of an instruction: the registers that it uses, whether it is a `lea`,
    its first operand where that is a register, and the address of a RIP-relative operand. -/
structure OpInfo where
  usedRegisters : List (Register × OpAccess)
  isLea : Bool
  operand0 : Option Register
  ipRelAddress : Option UInt64

/-- A 64-bit general register, by its number. -/
abbrev Gpr := Fin 16

/-- The registers that a call clobbers: RAX, RCX, RDX and R8 to R11. -/
def volatileRegisters : List Gpr := [0, 1, 2, 8, 9, 10, 11]

def isCall (insn : DecodedInstruction .x64) : Bool :=
  insn.flow == .call || insn.flow == .indirectCall

def fallsThrough (insn : DecodedInstruction .x64) : Bool :=
  insn.flow == .next || isCall insn || insn.flow == .conditionalBranch

section

variable (analysis : Analysis .x64) (iced : UInt64 → OpInfo) (register : Gpr)

/-- What the instruction at an address does to the register. -/
def writeEffect (source : UInt64) : Effect UInt64 :=
  let op := iced source
  if op.usedRegisters.any fun used => used.1.fullRegister == register.val && used.2.mayWrite then
    if op.isLea && op.operand0 == some (.qword register) then
      op.ipRelAddress.elim .unknown .defines
    else .unknown
  else .keeps

/-- What happens to the register until the next instruction: a call has returned by then. -/
def fallEffect (source : UInt64) (insn : DecodedInstruction .x64) : Effect UInt64 :=
  if isCall insn && decide (register ∈ volatileRegisters) then .unknown
  else writeEffect iced register source

/-! ## The search -/

/-- The nearest instruction below, where it ends at the address. -/
def previous (address : UInt64) : Option (UInt64 × DecodedInstruction .x64) :=
  (analysis.graph.instructions.entries.filter fun entry => entry.1 < address).getLast?.filter
    fun entry => entry.2.nextAddress == address

def predecessors (address : UInt64) : List (UInt64 × DecodedInstruction .x64) :=
  ((previous analysis address).toList.filter fun prior =>
      fallsThrough prior.2 && !decide (prior.1 ∈ analysis.graph.noreturnCalls)) ++
    (analysis.graph.codeXrefs.sources address).filterMap fun source =>
      ((analysis.graph.instructions.get? source).filter fun prior => !isCall prior).map
        fun prior => (source, prior)

/-- The predecessors that the search looks at, with what they do to the register. -/
def followed (address : UInt64) : List (UInt64 × Effect UInt64) :=
  (predecessors analysis address).map fun prior =>
    (prior.1, fallEffect iced register prior.1 prior.2)

/-- The number of addresses that the search may visit. -/
def maxVisited : Nat := 8192

def constantBefore (address : UInt64) : Option UInt64 :=
  search (followed analysis iced register) maxVisited [address] [] none

/-! ## The recorded graph -/

/-- A step of an execution from a recorded instruction to an address: it falls through, or follows
    a recorded reference, which may be that of a call entering its target. -/
inductive Enters : UInt64 → UInt64 → Effect UInt64 → Prop
  | fallthrough {target source : UInt64} {insn : DecodedInstruction .x64}
    (hinsn : analysis.graph.instructions.get? source = some insn)
    (hfalls : fallsThrough insn = true) (hreturns : source ∉ analysis.graph.noreturnCalls)
    (hnext : insn.nextAddress = target) :
    Enters target source (fallEffect iced register source insn)
  | reference {target source : UInt64} {insn : DecodedInstruction .x64}
    (hinsn : analysis.graph.instructions.get? source = some insn)
    (hsource : source ∈ analysis.graph.codeXrefs.sources target) :
    Enters target source (writeEffect iced register source)

/-- A function was recorded at the address. -/
def IsEntry (address : UInt64) : Prop := (analysis.functions.get? address).isSome = true

/-- The search follows every edge of the recorded graph into the address, which is no entry. -/
structure Complete (address : UInt64) : Prop where
  notEntry : ¬IsEntry analysis address
  noCall : ∀ source ∈ analysis.graph.codeXrefs.sources address,
    (analysis.graph.instructions.get? source).all (fun insn => !isCall insn) = true
  nearest : ∀ prior ∈ analysis.graph.instructions.entries, fallsThrough prior.2 = true →
    prior.1 ∉ analysis.graph.noreturnCalls → prior.2.nextAddress = address →
    (previous analysis address).map (·.1) = some prior.1

instance (address : UInt64) : Decidable (Complete analysis address) :=
  decidable_of_iff (((analysis.functions.get? address).isNone &&
    (analysis.graph.codeXrefs.sources address).all (fun source =>
      (analysis.graph.instructions.get? source).all fun insn => !isCall insn) &&
    analysis.graph.instructions.entries.all fun prior =>
      !(fallsThrough prior.2 && !decide (prior.1 ∈ analysis.graph.noreturnCalls) &&
        prior.2.nextAddress == address) ||
        (previous analysis address).map (·.1) == some prior.1) = true) <| by
    simp only [Bool.and_eq_true, List.all_eq_true, Bool.or_eq_true, Bool.not_eq_true',
      Bool.and_eq_false_imp, beq_iff_eq]
    constructor
    · rintro ⟨⟨hentry, hcall⟩, hnearest⟩
      refine ⟨by simpa [IsEntry] using hentry, hcall, fun prior hprior hfalls hreturns hnext => ?_⟩
      refine (hnearest prior hprior).resolve_left fun hnot => ?_
      simp [hfalls, hreturns, hnext] at hnot
    · rintro ⟨hentry, hcall, hnearest⟩
      refine ⟨⟨by simpa [IsEntry] using hentry, hcall⟩, fun prior hprior => ?_⟩
      by_cases hedge : fallsThrough prior.2 = true ∧
          prior.1 ∉ analysis.graph.noreturnCalls ∧ prior.2.nextAddress = address
      · exact Or.inr (hnearest prior hprior hedge.1 hedge.2.1 hedge.2.2)
      · refine Or.inl ?_
        simpa using hedge

end

variable {analysis : Analysis .x64} {iced : UInt64 → OpInfo} {register : Gpr}

theorem previous_eq_some {address : UInt64} {prior : UInt64 × DecodedInstruction .x64}
    (h : previous analysis address = some prior) :
    analysis.graph.instructions.get? prior.1 = some prior.2 ∧ prior.2.nextAddress = address := by
  obtain ⟨hlast, hnext⟩ := Option.filter_eq_some_iff.mp h
  have hmem := (List.mem_filter.mp (List.mem_of_getLast? hlast)).1
  exact ⟨OrdMap.mem_entries_iff.mp hmem, beq_iff_eq.mp hnext⟩

/-- Every predecessor that the search looks at is one of the recorded graph. -/
theorem enters_of_followed {target source : UInt64} {e : Effect UInt64}
    (h : (source, e) ∈ followed analysis iced register target) :
    Enters analysis iced register target source e := by
  obtain ⟨⟨source', insn⟩, hprior, heq⟩ := List.mem_map.mp h
  obtain ⟨rfl, rfl⟩ := Prod.mk.inj heq
  obtain hbelow | hreference := List.mem_append.mp hprior
  · obtain ⟨hprevious, hfalls⟩ := List.mem_filter.mp hbelow
    obtain ⟨hinsn, hnext⟩ := previous_eq_some (Option.mem_toList.mp hprevious)
    rw [Bool.and_eq_true, Bool.not_eq_true', decide_eq_false_iff_not] at hfalls
    exact .fallthrough hinsn hfalls.1 hfalls.2 hnext
  · obtain ⟨source, hsource, hmap⟩ := List.mem_filterMap.mp hreference
    obtain ⟨insn, hfilter, heq⟩ := Option.map_eq_some_iff.mp hmap
    obtain ⟨rfl, rfl⟩ := Prod.mk.inj heq
    obtain ⟨hinsn, hcall⟩ := Option.filter_eq_some_iff.mp hfilter
    rw [Bool.not_eq_true'] at hcall
    rw [fallEffect, hcall]
    exact .reference hinsn hsource

theorem Complete.followed {target source : UInt64} {e : Effect UInt64}
    (hcomplete : Complete analysis target) (h : Enters analysis iced register target source e) :
    (source, e) ∈ followed analysis iced register target := by
  cases h with
  | fallthrough hinsn hfalls hreturns hnext =>
    obtain ⟨prior, hprevious, rfl⟩ := Option.map_eq_some_iff.mp
      (hcomplete.nearest _ (OrdMap.mem_entries_iff.mpr hinsn) hfalls hreturns hnext)
    obtain rfl := Option.some.inj ((previous_eq_some hprevious).1.symm.trans hinsn)
    refine List.mem_map.mpr ⟨prior, List.mem_append_left _ (List.mem_filter.mpr ?_), rfl⟩
    rw [Bool.and_eq_true, Bool.not_eq_true', decide_eq_false_iff_not]
    exact ⟨Option.mem_toList.mpr hprevious, hfalls, hreturns⟩
  | @reference insn hinsn hsource =>
    have hcall : isCall insn = false := by
      have hnone := hcomplete.noCall source hsource
      rw [hinsn, Option.all_some, Bool.not_eq_true'] at hnone
      exact hnone
    refine List.mem_map.mpr ⟨(source, insn),
      List.mem_append_right _ (List.mem_filterMap.mpr ⟨source, hsource, ?_⟩), ?_⟩
    · rw [hinsn, Option.filter_some, hcall]
      rfl
    · rw [fallEffect, hcall]
      rfl

/-- The constant that the search finds is what the register holds on every path of the recorded
    graph, when the search is complete at every address from which the register is kept. That none
    of these is an entry is needed, too. -/
theorem constantBefore_sound_of_complete (analysis : Analysis .x64) (iced : UInt64 → OpInfo)
    (register : Gpr) (address : UInt64) :
    ((∀ a, Holds (Enters analysis iced register) address a → Complete analysis a) →
      ∀ c, constantBefore analysis iced register address = some c →
        ∀ effects start, Path (Enters analysis iced register) address effects start →
          Defined (Enters analysis iced register) (IsEntry analysis) c effects start) ∧
    ∀ c, (∀ effects start, Path (Enters analysis iced register) address effects start →
        Defined (Enters analysis iced register) (IsEntry analysis) c effects start) →
      ∀ a, Holds (Enters analysis iced register) address a → ¬IsEntry analysis a := by
  refine ⟨fun hcomplete c hc effects start hpath => ?_, fun c hall a ha => ha.not_entry hall⟩
  refine search_sound (fun _ _ _ => enters_of_followed) (fun a ha => ?_) hc hpath
  exact ⟨(hcomplete a ha).notEntry, fun _ _ => (hcomplete a ha).followed⟩

/-! ## Two loops -/

/-- A function with a `lea`, and behind it a loop whose branch leads back behind the `lea`. -/
def guardedLoop : Analysis .x64 where
  image :=
    { sections := [], externalBindings := ∅, uninitialized := [], mappedBytes := []
      decodeAt := fun _ => .error "no code"
      format := .elf, entryPoint := none, sectionFiles := [], importLocations := ∅
      primaryCode := [], deadData := [], elfPltRanges := [], opKinds := fun _ => [] }
  seeds := ∅
  graph :=
    { (FlowGraph.empty : FlowGraph .x64) with
      instructions := .ofList
        [(0x0ff9, ⟨0x1000, .next, none, some 0x5000, ⟨.other "lea", none, 1⟩⟩),
          (0x1000, ⟨0x1003, .next, none, none, ⟨.other "cmp", none, 1⟩⟩),
          (0x1003, ⟨0x1005, .conditionalBranch, some 0x1000, none, ⟨.other "jne", none, 1⟩⟩)]
      codeXrefs := .ofList [(0x1000, [0x1003])] }
  functions := .ofList [(0x0ff9, ⟨0x0ff9, []⟩)]
  noreturn := ∅

def guardedLoopInfo (address : UInt64) : OpInfo :=
  if address = 0x0ff9 then ⟨[(.qword 3, .write)], true, some (.qword 3), some 0x5000⟩
  else ⟨[], false, none, none⟩

/-- On every path to the branch RBX holds the constant of the `lea`, however often the loop is
    gone through. -/
theorem constantBefore_guardedLoop :
    constantBefore guardedLoop guardedLoopInfo 3 0x1003 = some 0x5000 ∧
      ∀ effects start, Path (Enters guardedLoop guardedLoopInfo 3) 0x1003 effects start →
        Defined (Enters guardedLoop guardedLoopInfo 3) (IsEntry guardedLoop) 0x5000 effects
          start := by
  have hbranch : followed guardedLoop guardedLoopInfo 3 0x1003 = [(0x1000, .keeps)] := by
    decide +kernel
  have hloop : followed guardedLoop guardedLoopInfo 3 0x1000 =
      [(0x0ff9, .defines 0x5000), (0x1003, .keeps)] := by
    decide +kernel
  have hconstant : constantBefore guardedLoop guardedLoopInfo 3 0x1003 = some 0x5000 := by
    simp [constantBefore, search, hbranch, hloop, scan, maxVisited]
  have hcomplete : ∀ a ∈ [0x1003, 0x1000], Complete guardedLoop a :=
    List.forall_mem_cons.mpr ⟨by decide +kernel,
      List.forall_mem_singleton.mpr (by decide +kernel)⟩
  refine ⟨hconstant, (constantBefore_sound_of_complete guardedLoop guardedLoopInfo 3 0x1003).1
    (fun a ha => hcomplete a ?_) _ hconstant⟩
  induction ha with
  | refl => exact List.mem_cons_self
  | tail _ hkeeps ih =>
    have hfollowed := (hcomplete _ ih).followed hkeeps
    have hkept : ∀ a ∈ [0x1003, 0x1000], kept (followed guardedLoop guardedLoopInfo 3) a ⊆
        [0x1003, 0x1000] := by simp [kept, hbranch, hloop]
    exact hkept _ ih (mem_kept.mpr hfollowed)

/-- A function whose first instruction is the target of a jump behind a `lea`, and a call of it. -/
def calledLoop : Analysis .x64 where
  image :=
    { sections := [], externalBindings := ∅, uninitialized := [], mappedBytes := []
      decodeAt := fun _ => .error "no code"
      format := .elf, entryPoint := none, sectionFiles := [], importLocations := ∅
      primaryCode := [], deadData := [], elfPltRanges := [], opKinds := fun _ => [] }
  seeds := ∅
  graph :=
    { (FlowGraph.empty : FlowGraph .x64) with
      instructions := .ofList
        [(0x1000, ⟨0x1003, .next, none, none, ⟨.other "cmp", none, 1⟩⟩),
          (0x1003, ⟨0x100a, .next, none, some 0x5000, ⟨.other "lea", none, 1⟩⟩),
          (0x100a, ⟨0x100c, .unconditionalBranch, some 0x1000, none, ⟨.other "jmp", none, 1⟩⟩),
          (0x1ffe, ⟨0x2000, .next, none, none, ⟨.other "xor", none, 1⟩⟩),
          (0x2000, ⟨0x2005, .call, some 0x1000, none, ⟨.other "call", none, 1⟩⟩)]
      codeXrefs := .ofList [(0x1000, [0x100a, 0x2000])] }
  functions := .ofList [(0x1000, ⟨0x1000, []⟩)]
  noreturn := ∅

/-- The `lea` and the `xor` write RBX. -/
def calledLoopInfo (address : UInt64) : OpInfo :=
  if address = 0x1003 then ⟨[(.qword 3, .write)], true, some (.qword 3), some 0x5000⟩
  else if address = 0x1ffe then ⟨[(.dword 3, .write)], false, some (.dword 3), none⟩
  else ⟨[], false, none, none⟩

/-- The search finds the constant of the `lea`. The call enters the function with another value of
    the register. -/
theorem constantBefore_calledLoop :
    constantBefore calledLoop calledLoopInfo 3 0x1000 = some 0x5000 ∧
      IsEntry calledLoop 0x1000 ∧
      Path (Enters calledLoop calledLoopInfo 3) 0x1000 [.keeps, .unknown] 0x1ffe ∧
      ¬Defined (Enters calledLoop calledLoopInfo 3) (IsEntry calledLoop) 0x5000
        [.keeps, .unknown] 0x1ffe := by
  have hfirst : followed calledLoop calledLoopInfo 3 0x1000 = [(0x100a, .keeps)] := by
    decide +kernel
  have hsecond : followed calledLoop calledLoopInfo 3 0x100a = [(0x1003, .defines 0x5000)] := by
    decide +kernel
  have hcallInsn : calledLoop.graph.instructions.get? 0x2000 =
      some ⟨0x2005, .call, some 0x1000, none, ⟨.other "call", none, 1⟩⟩ := rfl
  have hxorInsn : calledLoop.graph.instructions.get? 0x1ffe =
      some ⟨0x2000, .next, none, none, ⟨.other "xor", none, 1⟩⟩ := rfl
  have hcall : Enters calledLoop calledLoopInfo 3 0x1000 0x2000 .keeps :=
    .reference hcallInsn (by decide +kernel)
  have hxor : Enters calledLoop calledLoopInfo 3 0x2000 0x1ffe .unknown :=
    .fallthrough hxorInsn rfl (by decide +kernel) rfl
  refine ⟨?_, rfl, .cons hcall (.cons hxor (.nil _)), fun h => nomatch h⟩
  simp [constantBefore, search, hfirst, hsecond, scan, maxVisited]

end CapaX.Recovery.SwitchBase
