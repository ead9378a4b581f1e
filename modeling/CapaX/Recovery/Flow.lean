import CapaX.Collections.Intervals
import CapaX.Recovery.Image

/-
  Native flow discovery (`discover_direct_flow` in `recovery.rs`): from a start, follow direct
  control flow and record instructions, successor edges, references and suppressed calls in a
  graph that all starts share. In native mode the queue holds paths only. The inner loop of
  `discover_flow` walks one path; its address stands here at the head of the queue, so going on
  at `next` is putting `next` in front, and leaving the loop is going on with the rest.
-/

namespace CapaX.Recovery

open Collections

inductive EdgeKind where
  | fallthrough | branch | tailCall | jumpTable
  deriving DecidableEq, Repr

structure Edge where
  target : UInt64
  kind : EdgeKind
  deriving DecidableEq, Repr

structure RecoveryDiagnostic where
  address : UInt64
  message : String
  deriving DecidableEq, Repr

/-! ## Cross-references -/

abbrev Xrefs := OrdMap UInt64 (List UInt64)

/-- The recorded sources of references to a target. -/
def Xrefs.sources (index : Xrefs) (target : UInt64) : List UInt64 := (index.get? target).getD []

def pushXref (index : Xrefs) (target source : UInt64) : Xrefs :=
  index.upsert target fun old =>
    let sources := old.getD []
    if source ∈ sources then sources else sources ++ [source]

def removeCodeReference (codeXrefs : Xrefs) (source target : UInt64) : Xrefs :=
  match codeXrefs.get? target with
  | none => codeXrefs
  | some sources =>
    let kept := sources.filter fun address => decide (address ≠ source)
    if kept.isEmpty then codeXrefs.erase target else codeXrefs.upsert target fun _ => kept

/-! ## The state of a walk -/

/-- What a walk writes of `Analysis` and `DirectFlowGraph`. -/
structure FlowGraph (A : Architecture) where
  instructions : OrdMap UInt64 (DecodedInstruction A)
  instructionOrder : OrdMap UInt64 Nat
  successors : OrdMap UInt64 (List Edge)
  codeXrefs : Xrefs
  dataXrefs : Xrefs
  noreturnCalls : OrdSet UInt64
  diagnostics : List RecoveryDiagnostic

def FlowGraph.empty {A : Architecture} : FlowGraph A := ⟨∅, ∅, ∅, ∅, ∅, ∅, []⟩

/-- The graph together with the callees the walk found. -/
structure Walk (A : Architecture) extends FlowGraph A where
  calls : OrdSet UInt64

/-- What a walk only reads: the image, the known no-return addresses, the ranges that
    `code_barriers` marks as data, and the recognizer of guarded switches. -/
structure FlowInputs (A : Architecture) where
  image : LoadedImage A
  knownNoreturn : OrdSet UInt64
  codeBarriers : List (UInt64 × UInt64)
  switchTargets : FlowGraph A → DecodedInstruction A → Option (List UInt64)

/-- `in_data`, with its search. -/
def inData (locations : List (UInt64 × UInt64)) (address : UInt64) : Bool :=
  containsPoint locations address

namespace Walk

variable {A : Architecture}

def diagnose (w : Walk A) (address : UInt64) (message : String) : Walk A :=
  { w with diagnostics := w.diagnostics ++ [⟨address, message⟩] }

def setSuccessors (w : Walk A) (address : UInt64) (edges : List Edge) : Walk A :=
  { w with successors := w.successors.upsert address fun _ => edges }

def pushCodeXref (w : Walk A) (target source : UInt64) : Walk A :=
  { w with codeXrefs := pushXref w.codeXrefs target source }

/-- References from one source to each of the targets, in their order. -/
def pushCodeXrefs (w : Walk A) (targets : List UInt64) (source : UInt64) : Walk A :=
  targets.foldl (fun w target => w.pushCodeXref target source) w

def addCall (w : Walk A) (target : UInt64) : Walk A := { w with calls := w.calls.insert target }

/-- A call that does not come back: no reference to its target is kept. -/
def suppressCall (w : Walk A) (source target : UInt64) : Walk A :=
  { w with
    noreturnCalls := w.noreturnCalls.insert source
    codeXrefs := removeCodeReference w.codeXrefs source target }

/-- Record an instruction and the data it refers to. -/
def define (w : Walk A) (address : UInt64) (insn : DecodedInstruction A) : Walk A :=
  { w with
    dataXrefs := match insn.memoryTarget with
      | some target => pushXref w.dataXrefs target address
      | none => w.dataXrefs
    instructions := w.instructions.upsert address fun old => old.getD insn
    instructionOrder := w.instructionOrder.upsert address fun old =>
      old.getD w.instructionOrder.entries.length }

end Walk

/-! ## One instruction -/

section

variable {A : Architecture} (inputs : FlowInputs A)

/-- `Flow::Call` and `Flow::IndirectCall`. In native mode only a direct call has a target. -/
def followCall (address : UInt64) (insn : DecodedInstruction A) (pending : List UInt64)
    (w : Walk A) : List UInt64 × Walk A :=
  let next := insn.nextAddress
  let imported := insn.memoryTarget.any inputs.image.isImportSlot
  let target := if insn.flow = .call then insn.directTarget else none
  let w :=
    if insn.flow = .indirectCall ∧ target = none ∧ imported = false then
      w.diagnose address "unresolved indirect call"
    else w
  match target with
  | none => (next :: pending, w.setSuccessors address [⟨next, .fallthrough⟩])
  | some target =>
    let w := w.pushCodeXref target address
    -- the instruction after the call is no callee
    let w := if target ≠ next then w.addCall target else w
    if target ≠ next ∧ target ∈ inputs.knownNoreturn then
      (pending, (w.suppressCall address target).setSuccessors address [])
    else (next :: pending, w.setSuccessors address [⟨next, .fallthrough⟩])

def followIndirectBranch (address : UInt64) (insn : DecodedInstruction A)
    (pending : List UInt64) (w : Walk A) : List UInt64 × Walk A :=
  if insn.memoryTarget.any inputs.image.isImportSlot then
    -- the tail of an import thunk
    (pending, w.setSuccessors address [])
  else
    let targets := (inputs.switchTargets w.toFlowGraph insn).getD
      (jumpTableTargets inputs.image insn)
    if targets ≠ [] ∧ insn.isPointerJump then
      -- the pointed-to code is reached, but is no successor
      (pending ++ targets, (w.pushCodeXrefs targets address).setSuccessors address [])
    else if targets = [] then
      (pending, (w.diagnose address "unresolved indirect branch").setSuccessors address [])
    else
      (pending ++ targets, (w.pushCodeXrefs targets address).setSuccessors address
        (targets.map fun target => ⟨target, .jumpTable⟩))

/-- The arm of the walk for an instruction's flow: the queue the walk goes on with, and what the
    arm records. -/
def followFlow (address : UInt64) (insn : DecodedInstruction A) (pending : List UInt64)
    (w : Walk A) : List UInt64 × Walk A :=
  let next := insn.nextAddress
  match insn.flow with
  | .next => (next :: pending, w.setSuccessors address [⟨next, .fallthrough⟩])
  | .call | .indirectCall => followCall inputs address insn pending w
  | .conditionalBranch =>
    match insn.directTarget with
    | none => (pending ++ [next], w.setSuccessors address [⟨next, .fallthrough⟩])
    | some target =>
      (pending ++ [next] ++ [target], (w.pushCodeXref target address).setSuccessors address
        [⟨next, .fallthrough⟩, ⟨target, .branch⟩])
  | .unconditionalBranch =>
    match insn.directTarget with
    | none => (pending, w.setSuccessors address [])
    | some target =>
      (pending ++ [target],
        (w.setSuccessors address [⟨target, .branch⟩]).pushCodeXref target address)
  | .indirectBranch => followIndirectBranch inputs address insn pending w
  | .return | .terminal => (pending, w.setSuccessors address [])

/-! ## The walk -/

/-- Where the inner loop leaves a path before it decodes. -/
def stopsAt (w : Walk A) (address : UInt64) : Bool :=
  inData inputs.codeBarriers address || (w.successors.get? address).isSome ||
    !inputs.image.isExecutableAddress address

/-- How `discover_flow` returns: with its queue empty, or giving an oversized walk up. -/
inductive Outcome (A : Architecture) where
  | finished (w : Walk A)
  | abandoned (w : Walk A)

def maxInsnsPerFunction : Nat := 200000

def hexDigits (address : UInt64) : String := String.ofList (Nat.toDigits 16 address.toNat)

def abandonedMessage (start : UInt64) : String :=
  "abandoned code walk: direct flow from 0x" ++ hexDigits start ++ " exceeds " ++
    toString maxInsnsPerFunction ++ " instructions"

/-- Serve the queue up to the next instruction to record; `rest` is the walk after it, or `none`
    when the walk has recorded as many instructions as it may. -/
def runTasks (start : UInt64) (rest : Option (List UInt64 → Walk A → Outcome A)) :
    List UInt64 → Walk A → Outcome A
  | [], w => .finished w
  | address :: pending, w =>
    if stopsAt inputs w address then runTasks start rest pending w
    else
      match rest with
      | none => .abandoned (w.diagnose start (abandonedMessage start))
      | some continue_ =>
        match inputs.image.decodeAt address with
        | .error message => runTasks start rest pending (w.diagnose address message)
        | .ok insn =>
          if insn.isPrivilegedBarrier then
            runTasks start rest pending
              (w.diagnose address "stopped recovery at privileged instruction")
          else
            let (queue, w) := followFlow inputs address insn pending (w.define address insn)
            continue_ queue w

/-- A walk that may still record `budget` instructions. -/
def discoverFlow (start : UInt64) : Nat → List UInt64 → Walk A → Outcome A
  | 0 => runTasks inputs start none
  | budget + 1 => runTasks inputs start (some (discoverFlow start budget))

def discoverDirectFlow (graph : FlowGraph A) (start : UInt64) : Outcome A :=
  discoverFlow inputs start maxInsnsPerFunction [start] { graph with calls := ∅ }

/-- The graph after a list of starts, one walk after the other, when no walk was given up. -/
def discoverEach : List UInt64 → FlowGraph A → Option (FlowGraph A)
  | [], graph => some graph
  | start :: starts, graph =>
    match discoverDirectFlow inputs graph start with
    | .finished w => discoverEach starts w.toFlowGraph
    | .abandoned _ => none

end

end CapaX.Recovery
