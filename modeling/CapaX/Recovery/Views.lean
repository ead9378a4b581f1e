import CapaX.Recovery.Switch

/-
  Function views of the recorded flow (`build_function_view` in `recovery.rs`) and what they say
  about returning (`noreturn.rs`): a view is the part of the graph reachable from a start, cut into
  basic blocks, and `propagate` reads the no-return set of the next pass off the views.
-/

namespace CapaX.Recovery

open Collections

variable {A : Architecture}

structure BasicBlock (A : Architecture) where
  addr : UInt64
  insns : List (Located A)
  succs : List Edge

structure FunctionView (A : Architecture) where
  addr : UInt64
  blocks : List (BasicBlock A)

/-- What recovery has of an image. -/
structure Analysis (A : Architecture) where
  image : RecoveryImage A
  seeds : SeedMap
  graph : FlowGraph A
  functions : OrdMap UInt64 (FunctionView A)
  noreturn : OrdSet UInt64

namespace Analysis

def diagnose (analysis : Analysis A) (address : UInt64) (message : String) : Analysis A :=
  { analysis with
    graph := { analysis.graph with
      diagnostics := analysis.graph.diagnostics ++ [⟨address, message⟩] } }

def insertSeed (analysis : Analysis A) (address : UInt64) (kind : SeedKind) : Analysis A :=
  { analysis with seeds := analysis.seeds.insertKind address kind }

def hasSeedKind (analysis : Analysis A) (address : UInt64) (kind : SeedKind) : Bool :=
  (analysis.seeds.get? address).any fun kinds => decide (kind ∈ kinds)

end Analysis

/-! ## Views -/

section

variable (analysis : Analysis A) (start : UInt64)

def successorsAt (address : UInt64) : List Edge := (analysis.graph.successors.get? address).getD []

/-- The edges a view follows: not into a function that the linker's unwind table starts. -/
def viewEdges (address : UInt64) : List UInt64 :=
  ((successorsAt analysis address).filter fun edge =>
    !(decide (edge.kind = .fallthrough) && decide (edge.target ≠ start) &&
      analysis.hasSeedKind edge.target .unwind)).map Edge.target

/-- Serve the queue up to the next instruction to reach; `rest` is the search after it, or `none`
    when the view has as many instructions as it may. -/
def reachTasks (isolateStart : Bool)
    (rest : Option (List UInt64 → OrdSet UInt64 → Option (OrdSet UInt64))) :
    List UInt64 → OrdSet UInt64 → Option (OrdSet UInt64)
  | [], reachable => some reachable
  | address :: pending, reachable =>
    if (analysis.graph.instructions.get? address).isNone || decide (address ∈ reachable) then
      reachTasks isolateStart rest pending reachable
    else
      match rest with
      | none => none
      | some continue_ =>
        let edges := if isolateStart then [] else viewEdges analysis start address
        continue_ (pending ++ edges) (reachable.insert address)

def reach (isolateStart : Bool) :
    Nat → List UInt64 → OrdSet UInt64 → Option (OrdSet UInt64)
  | 0 => reachTasks analysis start isolateStart none
  | budget + 1 => reachTasks analysis start isolateStart (some (reach isolateStart budget))

def isBlockTerminator (flow : Flow) : Bool := flow ∉ [.next, .call, .indirectCall]

variable (reachable : OrdSet UInt64)

def reachableEdges (address : UInt64) : List Edge :=
  (successorsAt analysis address).filter fun edge => decide (edge.target ∈ reachable)

/-- The start, every reached target of a code reference, and every reached successor of an
    instruction that ends a block. -/
def blockStarts : OrdSet UInt64 :=
  let referenced := analysis.graph.codeXrefs.keys.filter fun target => decide (target ∈ reachable)
  let successors := reachable.toList.flatMap fun address =>
    match analysis.graph.instructions.get? address with
    | some insn =>
      if isBlockTerminator insn.flow then
        (reachableEdges analysis reachable address).map Edge.target
      else []
    | none => []
  OrdSet.ofList (start :: referenced ++ successors)

/-- The instructions of a block from an address on, and its edges. A block goes through distinct
    reachable addresses, which bounds its length. -/
def blockFrom (starts : OrdSet UInt64) (blockStart : UInt64) :
    Nat → UInt64 → List (Located A) → List (Located A) × List Edge
  | 0, _, insns => (insns, [])
  | length + 1, address, insns =>
    match analysis.graph.instructions.get? address with
    | none => (insns, [])
    | some insn =>
      let insns := insns ++ [⟨address, insn⟩]
      let next := insn.nextAddress
      if isBlockTerminator insn.flow then (insns, reachableEdges analysis reachable address)
      else if next ≠ blockStart ∧ next ∈ starts then (insns, [⟨next, .fallthrough⟩])
      else if next ∉ reachable then (insns, [])
      else blockFrom starts blockStart length next insns

end

def oversizedMessage (start : UInt64) : String :=
  "function 0x" ++ hexDigits start ++ " exceeds " ++ toString maxInsnsPerFunction ++
    " instructions"

def buildFunctionView (analysis : Analysis A) (start : UInt64) (isolateStart : Bool) :
    Except String (FunctionView A) :=
  match reach analysis start isolateStart maxInsnsPerFunction [start] ∅ with
  | none => .error (oversizedMessage start)
  | some reachable =>
    let starts := blockStarts analysis start reachable
    let blocks := (starts.toList.filter fun blockStart => decide (blockStart ∈ reachable)).map
      fun blockStart =>
        let (insns, succs) := blockFrom analysis reachable starts blockStart reachable.card
          blockStart []
        ⟨blockStart, insns, succs⟩
    .ok ⟨start, blocks⟩

/-! ## No-return -/

def peNoreturnApis : List String :=
  ["ntdll.rtlexituserthread", "kernel32.exitprocess", "kernel32.exitthread",
    "kernel32.fatalexit", "ntoskrnl.kebugcheckex"]

/-- A prefix and a suffix, with anything in between. -/
def peNoreturnApiPatterns : List (String × String) :=
  [("msvcr", "._cxxthrowexception"), ("msvcr", ".abort"), ("msvcr", ".exit"),
    ("msvcr", "._exit"), ("msvcr", ".quick_exit"),
    ("api_ms_win_crt_runtime_", "._invalid_parameter_noinfo_noreturn"),
    ("api_ms_win_crt_runtime_", ".exit"), ("api_ms_win_crt_runtime_", "._exit")]

def elfNoreturnApis : List String :=
  ["*.abort", "*.exit", "*._exit", "*.longjmp", "*._setjmp", "*.j__zst9terminatev",
    "*.std::terminate(void)", "*.__assert_fail", "*.__stack_chk_fail", "*.pthread_exit"]

/-- `name` is in lower case already. -/
def matchesNoreturnApi (format : ImageFormat) (name : String) : Bool :=
  match format with
  | .pe => decide (name ∈ peNoreturnApis) || peNoreturnApiPatterns.any fun (first, last) =>
      decide (first.length + last.length ≤ name.length) && name.startsWith first &&
        name.endsWith last
  | .elf => decide (name ∈ elfNoreturnApis)
  | .sc | .macho => false

/-- The import slots of the no-return APIs; `toLowercase` is that of the strings. -/
def seedAddresses (toLowercase : String → String) (image : RecoveryImage A) : OrdSet UInt64 :=
  OrdSet.ofList ((image.importLocations.entries.filter fun entry =>
    matchesNoreturnApi image.format (toLowercase entry.2)).map (·.1))

/-- The last instruction of a one-block PLT stub, when it is an indirect branch. -/
def pltJump (analysis : Analysis A) (function : FunctionView A) : Option (Located A) :=
  let inPlt := analysis.image.elfPltRanges.any fun range =>
    decide (range.1 ≤ function.addr) && decide (function.addr < range.2)
  match function.blocks with
  | [block] =>
    if analysis.image.format = .elf ∧ inPlt then
      block.insns.getLast?.filter fun last => decide (last.insn.flow = .indirectBranch)
    else none
  | _ => none

/-- The import slot that a thunk forwards to. -/
def importThunkLocation (analysis : Analysis A) (function : FunctionView A) : Option UInt64 := do
  let first ← analysis.graph.instructions.get? function.addr
  let entry := (pltJump analysis function).getD ⟨function.addr, first⟩
  let target ←
    if entry.insn.flow = .indirectCall ∨ entry.insn.flow = .indirectBranch then
      entry.insn.memoryTarget
    else do
      let second ← analysis.graph.instructions.get? entry.insn.nextAddress
      aarch64PltGotTarget analysis.image.toLoadedImage entry ⟨entry.insn.nextAddress, second⟩
  if (analysis.image.importLocations.get? target).isSome then some target else none

/-- An instruction recorded up to 14 bytes before the address reaches past it. -/
def overlapsEarlier (analysis : Analysis A) (address : UInt64) : Bool :=
  analysis.graph.instructions.entries.any fun (start, insn) =>
    decide (address.toNat - 14 ≤ start.toNat) && decide (start < address) &&
      decide (address < insn.nextAddress)

/-- Whether a leaf block says that its function returns, or that nothing is known. -/
def leafReturns (analysis : Analysis A) (function : FunctionView A) (last : Located A) : Bool :=
  if last.address ∈ analysis.graph.noreturnCalls then false
  else if !isBlockTerminator last.insn.flow &&
      decide (last.insn.nextAddress ≠ function.addr) &&
      analysis.hasSeedKind last.insn.nextAddress .unwind then true
  else
    decide (last.insn.flow ∈
      [.return, .unconditionalBranch, .conditionalBranch, .indirectBranch])

def functionNeverReturns (analysis : Analysis A) (function : FunctionView A) : Bool :=
  let starts := function.blocks.map (·.addr)
  let leaves := function.blocks.filter fun block =>
    !block.succs.any fun edge => decide (edge.target ∈ starts)
  !overlapsEarlier analysis function.addr && (importThunkLocation analysis function).isNone &&
    leaves.all fun block => block.insns.getLast?.all fun last =>
      !leafReturns analysis function last

/-- The no-return set that a completed pass yields. -/
def propagate (analysis : Analysis A) (seed : OrdSet UInt64) : OrdSet UInt64 :=
  analysis.functions.entries.foldl (fun result (_, function) =>
    if (importThunkLocation analysis function).any fun slot => decide (slot ∈ seed) then
      result.insert function.addr
    else if functionNeverReturns analysis function then result.insert function.addr
    else result) seed

end CapaX.Recovery
