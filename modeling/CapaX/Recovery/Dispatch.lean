import CapaX.Recovery.Switch

/-
  Native flow discovery with the accessor's calls (`discover_flow` with `compatibility` false). Of
  the arms of the walk only an indirect branch asks for the x86 instruction: the switch
  recognizers, `scan_jump_table` and `is_pointer_jump`. Every other arm is that of `followFlow`.
-/

namespace CapaX.Recovery.Checked

open Collections Control Control.Logged

variable {ε : Type} {A : Architecture}

/-! ## Jump tables -/

def isPointerJump (insn : DecodedInstruction A) : Checked ε Bool :=
  if A ≠ .aarch64 ∧ insn.memoryTarget.isSome then do
    let op ← insn.x86Instruction
    pure op.memoryIndex.isNone
  else pure false

/-- An indexed operand of another scale than four is no table. -/
def isUnlabelledIndex (insn : DecodedInstruction A) : Checked ε Bool :=
  if A ≠ .aarch64 then do
    let op ← insn.x86Instruction
    pure (op.memoryIndex.isSome && op.memoryIndexScale != 4)
  else pure false

def scanJumpTable (image : LoadedImage A) (insn : DecodedInstruction A)
    (accept : UInt64 → UInt64 → Bool) : Checked ε (List UInt64) :=
  match insn.memoryTarget with
  | none => pure []
  | some base => do
    let unlabelled ← isUnlabelledIndex insn
    if unlabelled then pure []
    else do
      let pointer ← isPointerJump insn
      let entries :=
        if pointer then 1
        else ((image.bytesAt base usizeMax).map fun bytes =>
          bytes.length / A.pointerWidth).getD 0
      pure (scanEntries image base accept entries 0)

def jumpTableTargets (image : LoadedImage A) (insn : DecodedInstruction A) :
    Checked ε (List UInt64) := do
  let targets ← scanJumpTable image insn fun _ _ => true
  pure (OrdSet.ofList targets).toList

/-! ## The walk -/

/-- What a native walk reads. -/
structure Inputs (ε : Type) (A : Architecture) where
  image : RecoveryImage A
  seeds : SeedMap
  knownNoreturn : OrdSet UInt64
  x86Switch : Switch.X86Switch ε A

/-- The arms that ask no recognizer read nothing else; no native walk marks a barrier. -/
def Inputs.flow (inputs : Inputs ε A) : FlowInputs A :=
  ⟨inputs.image.toLoadedImage, inputs.knownNoreturn, [], fun _ _ => none⟩

variable (inputs : Inputs ε A)

def followIndirectBranch (address : UInt64) (insn : DecodedInstruction A)
    (pending : List UInt64) (w : Walk A) : Checked ε (List UInt64 × Walk A) :=
  if insn.memoryTarget.any inputs.image.isImportSlot then
    pure (pending, w.setSuccessors address [])
  else do
    let found ← Switch.targets ⟨inputs.image, inputs.seeds, w.toFlowGraph⟩ inputs.x86Switch
      ⟨address, insn⟩
    let targets ← match found with
      | some targets => pure targets
      | none => jumpTableTargets inputs.image.toLoadedImage insn
    if targets = [] then
      pure (pending, (w.diagnose address "unresolved indirect branch").setSuccessors address [])
    else do
      let pointer ← isPointerJump insn
      let edges := if pointer then [] else targets.map fun target => ⟨target, .jumpTable⟩
      pure (pending ++ targets, (w.pushCodeXrefs targets address).setSuccessors address edges)

def followFlow (address : UInt64) (insn : DecodedInstruction A) (pending : List UInt64)
    (w : Walk A) : Checked ε (List UInt64 × Walk A) :=
  if insn.flow = .indirectBranch then followIndirectBranch inputs address insn pending w
  else pure (Recovery.followFlow inputs.flow address insn pending w)

def runTasks (start : UInt64) (rest : Option (List UInt64 → Walk A → Checked ε (Outcome A))) :
    List UInt64 → Walk A → Checked ε (Outcome A)
  | [], w => pure (.finished w)
  | address :: pending, w =>
    if stopsAt inputs.flow w address then runTasks start rest pending w
    else
      match rest with
      | none => pure (.abandoned (w.diagnose start (abandonedMessage start)))
      | some continue_ =>
        match inputs.image.decodeAt address with
        | .error message => runTasks start rest pending (w.diagnose address message)
        | .ok insn =>
          if insn.isPrivilegedBarrier then
            runTasks start rest pending
              (w.diagnose address "stopped recovery at privileged instruction")
          else do
            let (queue, w) ← followFlow inputs address insn pending (w.define address insn)
            continue_ queue w

/-- A walk that may still record `budget` instructions. -/
def discoverFlow (start : UInt64) : Nat → List UInt64 → Walk A → Checked ε (Outcome A)
  | 0 => runTasks inputs start none
  | budget + 1 => runTasks inputs start (some (discoverFlow start budget))

/-- Either way a walk returns, with what it found so far. -/
def discoverDirectFlow (graph : FlowGraph A) (start : UInt64) : Checked ε (Walk A) := do
  match ← discoverFlow inputs start maxInsnsPerFunction [start] { graph with calls := ∅ } with
  | .finished w => pure w
  | .abandoned w => pure w

end CapaX.Recovery.Checked
