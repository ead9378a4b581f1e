import CapaX.Isa.X86
import CapaX.Recovery.Image

/-
  The candidate emulator (`emucode.rs`): an abstract state whose registers are known bit by bit,
  and the integer instructions of `State::step`. The stack, string, vector and system instructions
  of `step` are not embedded. What the decoder reports of an instruction is an `Instruction`.
-/

namespace CapaX.Emucode

open Collections Recovery X86

/-! ## What is decoded -/

/-- The general registers of a size are numbered below sixteen. -/
instance instNeZeroSixteen : NeZero 16 := ⟨by decide⟩

/-- `iced_x86::Register`: none, the general ones, and the vector registers of 16 bytes or more. -/
inductive Register
  | none
  | low (n : Fin 16)
  | high (n : Fin 4)
  | word (n : Fin 16)
  | dword (n : Fin 16)
  | qword (n : Fin 16)
  | vector (bytes : Nat) (n : Fin 32)
  deriving DecidableEq

namespace Register

def size : Register → Nat
  | none => 0
  | low _ | high _ => 1
  | word _ => 2
  | dword _ => 4
  | qword _ => 8
  | vector bytes _ => bytes

/-- The register that it is a part of, as a number. -/
def fullRegister : Register → Nat
  | low n | word n | dword n | qword n => n
  | high n => n
  | vector _ n => 16 + n
  | none => 48

end Register

inductive Segment
  | es | cs | ss | ds | fs | gs
  deriving DecidableEq

inductive Mnemonic
  | mov | movzx | movsx | movsxd | lea | add | sub | xor | and | or | inc | dec | neg | not
  | shl | sal | shr | sar | imul | xchg | xadd | cmp | test | setcc | cmovcc
  deriving DecidableEq

/-- An operand with its kind: an immediate has been extended to the size that its kind says. -/
inductive Operand
  | register (r : Register)
  | memory
  | immediate8 (value : BitVec 8)
  | immediate16 (value : BitVec 16)
  | immediate32 (value : BitVec 32)
  | immediate64 (value : BitVec 64)
  | immediate8to16 (value : BitVec 16)
  | immediate8to32 (value : BitVec 32)
  | immediate8to64 (value : BitVec 64)
  | immediate32to64 (value : BitVec 64)
  | nearBranch (target : BitVec 64)
  | other
  deriving DecidableEq

/-- The operand in memory; `ipRelative` is `ip_rel_memory_address` where there is one. -/
structure MemoryOperand where
  segment : Segment
  ipRelative : Option (BitVec 64)
  base : Register
  index : Register
  indexScale : Nat
  displacement : BitVec 64

structure Instruction where
  mnemonic : Mnemonic
  operands : List Operand
  memory : MemoryOperand
  memorySize : Nat
  conditionCode : Option Condition
  rflagsModified : Nat

namespace Instruction

/-- An operand that is not there has the kind of a register, which is none. -/
def operandAt (op : Instruction) (index : Nat) : Operand :=
  op.operands[index]?.getD (.register .none)

def opCount (op : Instruction) : Nat := op.operands.length

def operandSize (op : Instruction) (index : Nat) : Nat :=
  match op.operandAt index with
  | .register r => r.size
  | _ => op.memorySize

def sameRegister (op : Instruction) : Bool :=
  match op.operandAt 0, op.operandAt 1 with
  | .register a, .register b => a == b
  | _, _ => false

end Instruction

/-- The condition that an instruction names; `ConditionCode::None` names none. -/
def condition (flags : Flags) : Option Condition → Option Bool
  | none => none
  | some c => some (match c with
    | .o => flags.overflow
    | .no => !flags.overflow
    | .b => flags.carry
    | .ae => !flags.carry
    | .e => flags.zero
    | .ne => !flags.zero
    | .be => flags.carry || flags.zero
    | .a => !flags.carry && !flags.zero
    | .s => flags.sign
    | .ns => !flags.sign
    | .p => flags.parity
    | .np => !flags.parity
    | .l => flags.sign != flags.overflow
    | .ge => flags.sign == flags.overflow
    | .le => flags.zero || flags.sign != flags.overflow
    | .g => !flags.zero && flags.sign == flags.overflow)

def mask (size : Nat) : BitVec 64 :=
  if 8 ≤ size then BitVec.allOnes 64 else (1#64 <<< (size * 8)) - 1#64

def highByte : Register → Bool
  | .high _ => true
  | _ => false

/-- An image with its `import_locations`. -/
structure Image (A : Architecture) where
  loaded : LoadedImage A
  importLocations : OrdMap UInt64 String

/-! ## States -/

/-- A register is its value and which bits of it are known. -/
structure State where
  registers : OrdMap Nat (BitVec 64 × BitVec 64)
  memory : OrdMap UInt64 (Option UInt8)
  flags : Option Flags

def stackBase : UInt64 := 0x7fff0000

namespace State

def register (s : State) (r : Register) : Option (BitVec 64) :=
  if r = .none then some 0
  else if 8 < r.size then none
  else do
    let (value, known) ← s.registers.get? r.fullRegister
    let shift := if highByte r then 8 else 0
    let wanted := mask r.size <<< shift
    if known &&& wanted = wanted then some ((value >>> shift) &&& mask r.size) else none

def setRegister (s : State) (r : Register) (value : Option (BitVec 64)) : State :=
  if 8 < r.size then { s with registers := s.registers.erase r.fullRegister }
  else
    let shift := if highByte r then 8 else 0
    let written := if 4 ≤ r.size then BitVec.allOnes 64 else mask r.size <<< shift
    let (old, known) := (s.registers.get? r.fullRegister).getD (0, 0)
    let (bits, writtenKnown) := match value with
      | some v => ((v &&& mask r.size) <<< shift, written)
      | none => (0, 0)
    { s with registers := s.registers.upsert r.fullRegister fun _ =>
        ((old &&& ~~~written) ||| bits, (known &&& ~~~written) ||| writtenKnown) }

variable {A : Architecture}

def address (s : State) (op : Instruction) (A : Architecture) : Option (BitVec 64) :=
  let m := op.memory
  if m.segment = .fs ∨ m.segment = .gs then none
  else match m.ipRelative with
    | some target => some target
    | none => do
      let base ← s.register m.base
      let index ← s.register m.index
      let address := base + index * BitVec.ofNat 64 m.indexScale + m.displacement
      let size := if A = .x86 ∨ m.base.size = 4 ∨ m.index.size = 4 then 4 else 8
      some (address &&& mask size)

/-- Memory that was not written is that of the image; what is not mapped reads as `a`. -/
def readByte (image : Image A) (s : State) (address : UInt64) : Option UInt8 :=
  match s.memory.get? address with
  | some byte => byte
  | none => some (((image.loaded.bytesAt address 1).bind (·.head?)).getD 0x61)

def read (image : Image A) (s : State) (address : UInt64) (size : Nat) : Option (BitVec 64) :=
  if ¬(1 ≤ size ∧ size ≤ 8) then none
  else if size = A.pointerWidth ∧ (image.importLocations.get? address).isSome ∧
      ¬(List.range size).any fun offset =>
        (checkedAdd address offset).any fun byte => (s.memory.get? byte).isSome then none
  else (List.range size).foldlM (fun value offset => do
    let byte ← s.readByte image (← checkedAdd address offset)
    some (value ||| byte.toBitVec.setWidth 64 <<< (8 * offset))) 0

/-- Stores go to the stack and to writable sections. -/
def write (image : Image A) (s : State) (address : UInt64) (size : Nat)
    (value : Option (BitVec 64)) : State :=
  let stackTop := stackBase + UInt64.ofNat (20 * A.pointerWidth)
  let stack := decide (stackTop - 0x8000 ≤ address) &&
    (checkedAdd address size).any fun last => decide (last ≤ stackTop)
  let mapped := (image.loaded.sectionContaining address).any (·.permissions.write) &&
    (image.loaded.bytesAt address size).any (·.length == size)
  if !stack && !mapped then s
  else (List.range (min size 64)).foldl (fun s offset =>
    match checkedAdd address offset with
    | some address =>
      let byte := if size ≤ 8 then
          value.map fun v : BitVec 64 => UInt8.ofBitVec ((v >>> (offset * 8)).setWidth 8)
        else none
      { s with memory := s.memory.upsert address fun _ => byte }
    | none => s) s

def operand (image : Image A) (s : State) (op : Instruction) (index : Nat) : Option (BitVec 64) :=
  match op.operandAt index with
  | .register r => s.register r
  | .memory =>
    let size := op.memorySize
    match s.address op A with
    | some address => s.read image (UInt64.ofBitVec address) size
    | none => if size ∈ [1, 2, 4, 8] then some (0x6161616161616161#64 &&& mask size) else none
  | .immediate8 value => some (value.setWidth 64)
  | .immediate16 value => some (value.setWidth 64)
  | .immediate32 value => some (value.setWidth 64)
  | .immediate64 value => some value
  | .immediate8to16 value => some (value.signExtend 64)
  | .immediate8to32 value => some (value.signExtend 64)
  | .immediate8to64 value => some value
  | .immediate32to64 value => some value
  | .nearBranch target => some target
  | .other => none

def assign (image : Image A) (s : State) (op : Instruction) (index : Nat)
    (value : Option (BitVec 64)) : State :=
  match op.operandAt index with
  | .register r => s.setRegister r value
  | .memory =>
    match s.address op A with
    | some address => s.write image (UInt64.ofBitVec address) op.memorySize value
    | none => s
  | _ => s

end State

/-! ## Flags -/

/-- `left.zip(right)` -/
def zip (left right : Option (BitVec 64)) : Option (BitVec 64 × BitVec 64) := do
  some (← left, ← right)

/-- The result of an operation on `size` bytes, its carry, and whether it subtracts. -/
def operation (mnemonic : Mnemonic) (limit a b : BitVec 64) : Option (BitVec 64 × Bool × Bool) :=
  match mnemonic with
  | .cmp | .sub => some ((a - b) &&& limit, decide (a < b), true)
  | .add => some ((a + b) &&& limit, decide (limit - a < b), false)
  | .test | .and => some (a &&& b, false, false)
  | .or => some (a ||| b, false, false)
  | .xor => some (a ^^^ b, false, false)
  | _ => none

def operationFlags (mnemonic : Mnemonic) (size : Nat) (a b : BitVec 64) : Option Flags := do
  let limit := mask size
  let sign := 1#64 <<< (size * 8 - 1)
  let a := a &&& limit
  let b := b &&& limit
  let (result, carry, subtraction) ← operation mnemonic limit a b
  let overflow := if mnemonic = .add ∨ mnemonic = .sub ∨ mnemonic = .cmp then
      let inputs := if subtraction then a ^^^ b else ~~~(a ^^^ b)
      inputs &&& (a ^^^ result) &&& sign != 0
    else false
  some {
    zero := result == 0
    sign := result &&& sign != 0
    carry := carry
    overflow := overflow
    parity := (result.setWidth 8).cpop &&& 1 == 0 }

/-- The flags after an instruction that modifies them. -/
def rebuiltFlags (op : Instruction) (left right : Option (BitVec 64)) : Option Flags :=
  let size := op.operandSize 0
  if 1 ≤ size ∧ size ≤ 8 then do
    let (a, b) ← if op.sameRegister ∧
        (op.mnemonic = .xor ∨ op.mnemonic = .sub ∨ op.mnemonic = .cmp) then some (0, 0)
      else zip left right
    operationFlags op.mnemonic size a b
  else none

/-! ## Steps -/

/-- `size.clamp(1, 8) * 8` -/
def clampedBits (size : Nat) : Nat := max 1 (min size 8) * 8

def shiftValue (mnemonic : Mnemonic) (size : Nat) (a b : BitVec 64) : BitVec 64 :=
  let bits := clampedBits size
  let count := (b &&& if bits = 64 then 63 else 31).toNat
  match mnemonic with
  | .shl | .sal => a <<< count
  | .shr => (a &&& mask size) >>> count
  | _ => ((a <<< (64 - bits)).sshiftRight (64 - bits)).sshiftRight count

namespace State

variable {A : Architecture} (image : Image A)

/-- What an instruction assigns to its first operand. -/
def value (s : State) (op : Instruction) (left right : Option (BitVec 64)) : Option (BitVec 64) :=
  match op.mnemonic with
  | .mov | .movzx => right
  | .movsx | .movsxd => right.map fun value : BitVec 64 =>
    let shift := 64 - clampedBits (op.operandSize 1)
    (value <<< shift).sshiftRight shift
  | .lea => s.address op A
  | .add => (zip left right).map fun (a, b) => a + b
  | .sub => if op.sameRegister then some 0 else (zip left right).map fun (a, b) => a - b
  | .xor => if op.sameRegister then some 0 else (zip left right).map fun (a, b) => a ^^^ b
  | .and => if right = some 0 then some 0 else (zip left right).map fun (a, b) => a &&& b
  | .or => (zip left right).map fun (a, b) => a ||| b
  | .inc => left.map fun value => value + 1
  | .dec => left.map fun value => value - 1
  | .neg => left.map fun value => -value
  | .not => left.map fun value => ~~~value
  | .shl | .sal | .shr | .sar =>
    (zip left right).map fun (a, b) => shiftValue op.mnemonic (op.operandSize 0) a b
  | .imul =>
    if op.opCount = 3 then (zip right (s.operand image op 2)).map fun (a, b) => a * b
    else (zip left right).map fun (a, b) => a * b
  | .cmovcc =>
    match s.flags.bind fun flags => condition flags op.conditionCode with
    | some true => right
    | some false => left
    | none => if left = right then left else none
  | .setcc => (s.flags.bind fun flags => condition flags op.conditionCode).map fun holds =>
    if holds then 1 else 0
  | .xchg | .xadd | .cmp | .test => none

/-- The arms of `step`, after the flags. -/
def execute (s : State) (op : Instruction) (left right : Option (BitVec 64)) : State :=
  match op.mnemonic with
  | .xchg => (s.assign image op 0 right).assign image op 1 left
  | .xadd =>
    let address := s.address op A
    let sum := (zip left right).map fun (a, b) => a + b
    let s := s.assign image op 1 left
    match op.operandAt 0 with
    | .memory =>
      match address with
      | some address => s.write image (UInt64.ofBitVec address) op.memorySize sum
      | none => s
    | _ => s.assign image op 0 sum
  | .cmp | .test => s
  | .imul =>
    if 1 < op.opCount then s.assign image op 0 (s.value image op left right)
    else (s.setRegister (.qword 0) none).setRegister (.qword 2) none
  | _ => s.assign image op 0 (s.value image op left right)

def step (s : State) (op : Instruction) : State :=
  let left := s.operand image op 0
  let right := if 1 < op.opCount then s.operand image op 1 else none
  let s := if op.rflagsModified ≠ 0 then { s with flags := rebuiltFlags op left right } else s
  s.execute image op left right

end State

end CapaX.Emucode
