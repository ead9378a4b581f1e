import CapaX.Recovery.Seeds

/-
  Guarded switches (`switch.rs`): the straight-line dispatch behind a compare and a guard is read
  backwards from its branch (`guardedSequence`), then matched by architecture. The AArch64 shape
  is `cmp; b.hi; adrp; add; ldrsw; add; br` (`armTargets`).
-/

namespace CapaX.Recovery

open Collections Control Control.Logged

/-- What the recognizers read of an analysis. -/
structure SwitchView (A : Architecture) where
  image : RecoveryImage A
  seeds : SeedMap
  graph : FlowGraph A

/-- An instruction at its address. -/
structure Located (A : Architecture) where
  address : UInt64
  insn : DecodedInstruction A

/-! ## AArch64 words -/

section

variable {A : Architecture} (image : LoadedImage A)

def readU32 (address : UInt64) : Option Nat :=
  match image.bytesAt address 4 with
  | some [b₀, b₁, b₂, b₃] => some (fromLeBytes [b₀, b₁, b₂, b₃]).toNat
  | _ => none

/-- The word of a recognized AArch64 instruction: its bytes are those the image has at its address
    (`decode_at_aarch64`). -/
def armWord (located : Located A) : Option (BitVec 32) := do
  let _ ← located.insn.aarch64Opcode
  let word ← readU32 image located.address
  some (BitVec.ofNat 32 word)

/-- The `len` bits of a word from bit `start` on. -/
def field (word : BitVec 32) (start len : Nat) : Nat := (word.extractLsb' start len).toNat

def pageOf (address : UInt64) : UInt64 := address &&& ~~~0xfff

/-- The page offset that an ADRP adds. -/
def adrpOffset (adrp : BitVec 32) : Int :=
  toSigned 21 (field adrp 5 19 * 4 + field adrp 29 2) * 4096

/-- The GOT slot of a PLT stub that begins with `adrp Xn, page; ldr Xn, [Xn, #off]`. -/
def aarch64PltGotTarget (first second : Located A) : Option UInt64 := do
  let firstName ← first.insn.aarch64Opcode
  let secondName ← second.insn.aarch64Opcode
  if firstName ≠ "adrp" ∨ secondName ≠ "ldr" then none
  let adrp ← armWord image first
  let ldr ← armWord image second
  if field ldr 30 2 ≠ 3 then none
  if field adrp 0 5 ≠ field ldr 5 5 then none
  let page := pageOf first.address + UInt64.ofInt (adrpOffset adrp)
  some (page + UInt64.ofNat (8 * field ldr 10 12))

end

namespace Switch

variable {ε : Type} {A : Architecture} (view : SwitchView A)

def maxCases : Nat := 256

def maxDispatchInsns : Nat := 10

/-- The instruction recorded just before an address, when it ends there. -/
def previous (address : UInt64) : Option (Located A) := do
  let (start, insn) ←
    (view.graph.instructions.entries.takeWhile fun entry => decide (entry.1 < address)).getLast?
  if insn.nextAddress = address then some ⟨start, insn⟩ else none

def hasEntry (address : UInt64) : Bool :=
  (view.graph.codeXrefs.get? address).isSome || view.seeds.contains address

/-! ## The guarded sequence -/

/-- Walk back from the head of a sequence to its guard and compare. -/
def guardedFrom (branch : UInt64) : Nat → UInt64 → List (Located A) → Option (List (Located A))
  | 0, _, _ => none
  | steps + 1, current, sequence =>
    if hasEntry view current then none
    else do
      let prior ← previous view current
      if prior.insn.flow = .conditionalBranch then
        if hasEntry view prior.address then none
        else do
          let default ← prior.insn.directTarget
          -- the default arm may not lead back into the sequence
          if prior.insn.nextAddress ≤ default ∧ default ≤ branch then none
          else do
            let compare ← previous view prior.address
            if compare.insn.flow ≠ .next then none else some (compare :: prior :: sequence)
      else if prior.insn.flow ≠ .next then none
      else guardedFrom branch steps prior.address (prior :: sequence)

def guardedSequence (branch : Located A) : Option (List (Located A)) :=
  guardedFrom view branch.address maxDispatchInsns branch.address [branch]

/-! ## AArch64 -/

def caseCount (limit : Nat) (inclusive : Bool) : Option Nat :=
  let count := limit + inclusive.toNat
  if 0 < count ∧ count ≤ maxCases then some count else none

/-- An immediate of 12 bits that bit 22 shifts by 12. -/
def shiftedImmediate (word : BitVec 32) : Nat :=
  field word 10 12 <<< if field word 22 1 = 1 then 12 else 0

/-- Whether the selector that the load extends is bounded by the compare: a W compare bounds a
    UXTW or SXTW index, an X compare an LSL index; otherwise a preceding W ADD or SUB must have
    cleared the high bits. -/
def extensionBounded (compare : Located A) (cmp ldr : BitVec 32) (index : Nat) : Bool :=
  let extension := field ldr 13 3
  if (extension = 2 ∨ extension = 6) ∧ field cmp 31 1 = 0 then true
  else if extension = 3 ∧ field cmp 31 1 ≠ 0 then true
  else if extension = 3 ∧ hasEntry view compare.address = false then
    (previous view compare.address).any fun prior =>
      (armWord view.image.toLoadedImage prior).any fun word =>
        decide (word &&& 0x9f800000 = 0x11000000) && decide (field word 0 5 = index)
  else false

/-- Whether the guard leaves the limit to the table (`b.hi`), or not (`b.hs`). -/
def guardInclusive (cond : BitVec 32) : Option Bool :=
  if field cond 0 4 = 8 then some true
  else if field cond 0 4 = 2 then some false
  else none

def armTargets (compare guard : Located A) (body : List (Located A)) : Option (List UInt64) :=
  match body with
  | [page, baseAdd, load, targetAdd, branch] => do
    let cmp ← armWord view.image.toLoadedImage compare
    let cond ← armWord view.image.toLoadedImage guard
    if cmp &&& 0x7f80001f ≠ 0x7100001f ∨ cond &&& 0xff000010 ≠ 0x54000000 then none
    else do
      let inclusive ← guardInclusive cond
      let count ← caseCount (shiftedImmediate cmp) inclusive
      let index := field cmp 5 5
      let adrp ← armWord view.image.toLoadedImage page
      let add ← armWord view.image.toLoadedImage baseAdd
      let ldr ← armWord view.image.toLoadedImage load
      let sum ← armWord view.image.toLoadedImage targetAdd
      let br ← armWord view.image.toLoadedImage branch
      let base := field adrp 0 5
      let loaded := field ldr 0 5
      let result := field sum 0 5
      if adrp &&& 0x9f000000 ≠ 0x90000000 ∨ add &&& 0xff800000 ≠ 0x91000000 ∨
          ldr &&& 0xffe01c00 ≠ 0xb8a01800 ∨ sum &&& 0xffe0fc00 ≠ 0x8b000000 ∨
          br &&& 0xfffffc1f ≠ 0xd61f0000 then none
      else if base = 31 ∨ index = 31 ∨ loaded = 31 ∨ result = 31 ∨ base = index ∨ loaded = base ∨
          field add 0 5 ≠ base ∨ field add 5 5 ≠ base ∨ field ldr 5 5 ≠ base ∨
          field ldr 16 5 ≠ index ∨ field br 5 5 ≠ result ∨
          ¬(field sum 5 5 = loaded ∧ field sum 16 5 = base ∨
            field sum 5 5 = base ∧ field sum 16 5 = loaded) then none
      else if extensionBounded view compare cmp ldr index = false then none
      else do
        let pageAddress ← checkedAddSigned (pageOf page.address) (adrpOffset adrp)
        let table ← checkedAdd pageAddress (shiftedImmediate add)
        (List.range count).mapM fun entry => do
          let slot ← checkedAdd table (4 * entry)
          let raw ← readU32 view.image.toLoadedImage slot
          checkedAddSigned table (toSigned 32 raw)
  | _ => none

/-! ## The recognizer -/

/-- An arm may not re-enter the dispatch, and has to decode. -/
def acceptsArm (compare branch : Located A) (target : UInt64) : Bool :=
  !(decide (compare.insn.nextAddress ≤ target) && decide (target ≤ branch.address)) &&
    view.image.isExecutableAddress target &&
    !(decide (A = .aarch64) && decide (target % 4 ≠ 0)) &&
    match view.image.decodeAt target with
    | .ok insn => !(decide (A = .aarch64) && insn.aarch64Opcode.isNone)
    | .error _ => false

/-- The recognizers of x86 switches, over the compare, the guard and the rest. -/
abbrev X86Switch (ε : Type) (A : Architecture) : Type :=
  SwitchView A → Located A → Located A → List (Located A) → Checked ε (Option (List UInt64))

/-- `switch::targets`: the distinct arms in increasing order. -/
def targets (x86Targets : X86Switch ε A) (branch : Located A) :
    Checked ε (Option (List UInt64)) :=
  match guardedSequence view branch with
  | some (compare :: guard :: body) => do
    let found ← if A = .aarch64 then pure (armTargets view compare guard body)
      else x86Targets view compare guard body
    pure (found.bind fun arms =>
      if arms.all (acceptsArm view compare branch) then some (OrdSet.ofList arms).toList
      else none)
  | _ => pure none

end Switch

end CapaX.Recovery
