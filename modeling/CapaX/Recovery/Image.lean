import CapaX.Collections.OrdMap
import Mathlib.Algebra.Group.Int.Defs
import Mathlib.Algebra.Group.Nat.Defs
import Mathlib.Data.List.Dedup

/-
  Loaded images as flow recovery reads them (`image.rs`, `decoder.rs`): mapped sections with
  their bytes, import slots, one decoded instruction per address, and the jump tables of an
  indirect branch (`jump_table_targets` in `recovery.rs`). The decoder itself is a parameter: an
  image carries the function from an address to its instruction or the error's text.
-/

namespace CapaX.Recovery

open Collections

/-- Virtual addresses are compared as the numbers they are. -/
instance instLinearOrderUInt64 : LinearOrder UInt64 where
  le_refl := UInt64.le_refl
  le_trans _ _ _ := UInt64.le_trans
  lt_iff_le_not_ge _ _ := by rw [UInt64.le_iff_toNat_le, UInt64.le_iff_toNat_le,
    UInt64.lt_iff_toNat_lt]; omega
  le_antisymm _ _ := UInt64.le_antisymm
  le_total := UInt64.le_total
  toDecidableLE := fun a b => inferInstanceAs (Decidable (a ≤ b))
  toDecidableLT := fun a b => inferInstanceAs (Decidable (a < b))
  toDecidableEq := inferInstance

instance instLawfulBEqUInt64 : LawfulBEq UInt64 := inferInstance

def checkedSub (a b : UInt64) : Option UInt64 := if b ≤ a then some (a - b) else none

def checkedAdd (a : UInt64) (n : Nat) : Option UInt64 :=
  if a.toNat + n < 2 ^ 64 then some (UInt64.ofNat (a.toNat + n)) else none

def saturatingAdd (a : UInt64) (n : Nat) : UInt64 :=
  (checkedAdd a n).getD (UInt64.ofNat (2 ^ 64 - 1))

/-! ## Architectures and decoded instructions -/

inductive Architecture where
  | x86 | x64 | aarch64
  deriving DecidableEq, Repr

namespace Architecture

def bitness : Architecture → Nat
  | x86 => 32
  | x64 | aarch64 => 64

def pointerWidth (a : Architecture) : Nat := a.bitness / 8

end Architecture

/-- What recovery needs of an instruction: how control goes on from it. -/
inductive Flow where
  | next | call | indirectCall | conditionalBranch | unconditionalBranch | indirectBranch
  | return | terminal
  deriving DecidableEq, Repr

/-- The mnemonics `is_privileged_barrier` names, and all others. -/
inductive Mnemonic where
  | cli | hlt | insb | insd | insw | outsb | outsd | outsw | sti
  | other (name : String)
  deriving DecidableEq, Repr

/-- An x86 instruction; `memoryIndex` is `none` for `Register::None`. -/
structure X86Instruction where
  mnemonic : Mnemonic
  memoryIndex : Option String
  memoryIndexScale : Nat

/-- An AArch64 word, with its mnemonic when the decoder recognizes it. -/
structure Aarch64Insn where
  opcode : Option String

/-- The detail behind an instruction is that of the image's architecture. -/
def ArchDetail : Architecture → Type
  | .x86 => X86Instruction
  | .x64 => X86Instruction
  | .aarch64 => Aarch64Insn

structure DecodedInstruction (A : Architecture) where
  nextAddress : UInt64
  flow : Flow
  directTarget : Option UInt64
  memoryTarget : Option UInt64
  arch : ArchDetail A

namespace DecodedInstruction

/-- The x86 instruction, of an image that is not AArch64. The callers below test the
    architecture before they use the accessor; here the test and the accessor are one. -/
def x86Instruction? : {A : Architecture} → DecodedInstruction A → Option X86Instruction
  | .x86, insn => some insn.arch
  | .x64, insn => some insn.arch
  | .aarch64, _ => none

variable {A : Architecture}

def isPrivilegedBarrier (insn : DecodedInstruction A) : Bool :=
  insn.x86Instruction?.any fun instruction =>
    match instruction.mnemonic with
    | .cli | .hlt | .insb | .insd | .insw | .outsb | .outsd | .outsw | .sti => true
    | .other _ => false

/-- A branch through one pointer in memory, with no index that selects an entry. -/
def isPointerJump (insn : DecodedInstruction A) : Bool :=
  insn.x86Instruction?.any fun instruction =>
    insn.memoryTarget.isSome && instruction.memoryIndex.isNone

end DecodedInstruction

/-! ## Images -/

structure Permissions where
  read : Bool
  write : Bool
  execute : Bool

structure MappedSection where
  address : UInt64
  virtualSize : UInt64
  permissions : Permissions

def MappedSection.containsVa (mapped : MappedSection) (address : UInt64) : Bool :=
  (checkedSub address mapped.address).any fun offset => decide (offset < mapped.virtualSize)

/-- `mappedBytes` is parallel to `sections`; `decodeAt` is the decoder at work on the image. -/
structure LoadedImage (A : Architecture) where
  sections : List MappedSection
  externalBindings : OrdMap UInt64 (List String)
  uninitialized : List (UInt64 × UInt64)
  mappedBytes : List (List UInt8)
  decodeAt : UInt64 → Except String (DecodedInstruction A)

def usizeMax : Nat := 2 ^ 64 - 1

namespace LoadedImage

variable {A : Architecture}

def sectionContaining (image : LoadedImage A) (address : UInt64) : Option MappedSection :=
  image.sections.find? fun mapped => mapped.containsVa address

def isUninitialized (image : LoadedImage A) (address : UInt64) : Bool :=
  image.uninitialized.any fun range => decide (range.1 ≤ address) && decide (address < range.2)

/-- At most `maxLen` bytes from `address` on, within its section. -/
def bytesAt (image : LoadedImage A) (address : UInt64) (maxLen : Nat) : Option (List UInt8) := do
  let (mapped, index) ← image.sections.zipIdx.find? fun entry => entry.1.containsVa address
  let relative ← checkedSub address mapped.address
  let data ← image.mappedBytes[index]?
  if relative.toNat ≤ data.length then
    let len := min maxLen (data.length - relative.toNat)
    some ((data.drop relative.toNat).take len)
  else none

def isExecutableAddress (image : LoadedImage A) (address : UInt64) : Bool :=
  (image.sectionContaining address).any (·.permissions.execute) &&
    !image.isUninitialized address && (image.bytesAt address 1).isSome

/-- A slot that `external_bindings` names. -/
def isImportSlot (image : LoadedImage A) (slot : UInt64) : Bool :=
  (image.externalBindings.get? slot).isSome

end LoadedImage

/-! ## Jump tables -/

def fromLeBytes (bytes : List UInt8) : UInt64 :=
  bytes.foldr (fun byte value => byte.toUInt64 + 256 * value) 0

section

variable {A : Architecture}

/-- The entries of a table from `index` on, up to the first that is no executable address. -/
def scanEntries (image : LoadedImage A) (base : UInt64) (accept : UInt64 → UInt64 → Bool) :
    Nat → Nat → List UInt64
  | 0, _ => []
  | entries + 1, index =>
    match checkedAdd base (index * A.pointerWidth) with
    | none => []
    | some slot =>
      match image.bytesAt slot A.pointerWidth with
      | none => []
      | some raw =>
        if raw.length < A.pointerWidth then []
        else
          let target := fromLeBytes raw
          if !image.isExecutableAddress target || !accept slot target then []
          else target :: scanEntries image base accept entries (index + 1)

def scanJumpTable (image : LoadedImage A) (insn : DecodedInstruction A)
    (accept : UInt64 → UInt64 → Bool) : List UInt64 :=
  match insn.memoryTarget with
  | none => []
  | some base =>
    -- only scale-four operands are tables on x86
    if insn.x86Instruction?.any fun instruction =>
        instruction.memoryIndex.isSome && instruction.memoryIndexScale != 4 then []
    else
      let entries :=
        if insn.isPointerJump then 1
        else ((image.bytesAt base usizeMax).map fun bytes =>
          bytes.length / A.pointerWidth).getD 0
      scanEntries image base accept entries 0

/-- The distinct targets of a table, in increasing order. -/
def jumpTableTargets (image : LoadedImage A) (insn : DecodedInstruction A) : List UInt64 :=
  (OrdSet.ofList (scanJumpTable image insn fun _ _ => true)).toList

end

end CapaX.Recovery
