import CapaX.Control.Logged
import CapaX.Recovery.Flow

/-
  Function seeds before any flow is walked (`collect_seeds`, `add_backend_fallback_seeds` in
  `recovery.rs`). A run that asks an AArch64 instruction for its x86 detail ends in the accessor's
  `unreachable!` arm (`x86Instruction`), so everything that may ask is a run (`Checked`). What only
  x86 images run stands behind the source's architecture tests as functions given (`X86Seeds`);
  they may run into the arm as well.
-/

namespace CapaX.Recovery

open Collections Control Control.Logged

/-! ## The accessor -/

/-- The `unreachable!` arm of `x86_instruction`. -/
structure Unreachable where
  message : String
  deriving DecidableEq, Repr

/-- A run that may reach the arm, with the events it logs. -/
abbrev Checked (ε α : Type) := Logged Unreachable ε α

variable {ε : Type}

/-- The x86 instruction behind a decoded one. -/
def DecodedInstruction.x86Instruction :
    {A : Architecture} → DecodedInstruction A → Checked ε X86Instruction
  | .x86, insn => pure insn.arch
  | .x64, insn => pure insn.arch
  | .aarch64, _ =>
    throwFault ⟨"x86_instruction() called on an AArch64 DecodedInstruction"⟩

/-- The recognized AArch64 opcode; none for an x86 instruction. -/
def DecodedInstruction.aarch64Opcode : {A : Architecture} → DecodedInstruction A → Option String
  | .aarch64, insn => Aarch64Insn.opcode insn.arch
  | .x86, _ => none
  | .x64, _ => none

/-! ## Images -/

inductive ImageFormat where
  | pe | elf | sc | macho
  deriving DecidableEq, Repr

/-- The operand kinds recovery asks for, and all others. -/
inductive OpKind where
  | register | memory | other (name : String)
  deriving DecidableEq, Repr

/-- A loaded image with what recovery reads of it beyond the flow. `sectionFiles`, a name and a
    file size, is parallel to `sections`; `opKinds` are the operands the decoder reports. -/
structure RecoveryImage (A : Architecture) extends LoadedImage A where
  format : ImageFormat
  entryPoint : Option UInt64
  sectionFiles : List (String × UInt64)
  importLocations : OrdMap UInt64 String
  primaryCode : List (UInt64 × UInt64)
  deadData : List (UInt64 × UInt64)
  elfPltRanges : List (UInt64 × UInt64)
  opKinds : X86Instruction → List OpKind

namespace RecoveryImage

variable {A : Architecture}

/-- The end of a dead range is inside it. -/
def isDeadData (image : RecoveryImage A) (address : UInt64) : Bool :=
  image.deadData.any fun range => decide (range.1 ≤ address) && decide (address ≤ range.2)

def isPrimaryCodeAddress (image : RecoveryImage A) (address : UInt64) : Bool :=
  image.primaryCode.any fun range => decide (range.1 ≤ address) && decide (address < range.2)

def maxPrologueScanBytes : Nat := 32 * 1024 * 1024

/-- The sections that the fallback scans go through, with their bytes on file. -/
def scannedSections (image : RecoveryImage A) : List (UInt64 × List UInt8) :=
  (image.sections.zip image.sectionFiles).filterMap fun (mapped, file) =>
    if mapped.permissions.execute && image.isPrimaryCodeAddress mapped.address then
      (image.bytesAt mapped.address (min file.2.toNat maxPrologueScanBytes)).map fun bytes =>
        (mapped.address, bytes)
    else none

end RecoveryImage

/-! ## Seeds -/

inductive SeedKind where
  | entryPoint | export | tlsCallback | safeSeh | unwind | symbol | init | fini | initArray
  | finiArray | relocation | pointerTarget | emulated | apiCallback | flirtLocal | libcMain
  | goRuntimeMain | functionSignature | msvcCookieBlock | prologue | sweepCallTarget | callTarget
  | machoFunctionStarts
  deriving DecidableEq, Repr

/-- Each seed with its kinds, in no order that anything reads. -/
abbrev SeedMap := OrdMap UInt64 (List SeedKind)

namespace SeedMap

def contains (seeds : SeedMap) (address : UInt64) : Bool := (seeds.get? address).isSome

def insertKind (seeds : SeedMap) (address : UInt64) (kind : SeedKind) : SeedMap :=
  seeds.upsert address fun old => (old.getD []).insert kind

/-- Every kind of one map is a kind of the other. -/
def extend (seeds more : SeedMap) : SeedMap :=
  more.entries.foldl (fun seeds entry => entry.2.foldl (·.insertKind entry.1 ·) seeds) seeds

end SeedMap

inductive RecoveryBackend where
  | vivisectCompat | native
  deriving DecidableEq, Repr

section

variable {A : Architecture} (image : RecoveryImage A)

def addSeed (seeds : SeedMap) (address : UInt64) (kind : SeedKind) : SeedMap :=
  if image.isExecutableAddress address then seeds.insertKind address kind else seeds

/-- What seed collection runs on x86 images only. -/
structure X86Seeds (ε : Type) (A : Architecture) where
  libcMainAddress : RecoveryImage A → Checked ε (Option UInt64)
  prologueSeeds : RecoveryImage A → List UInt64
  functionSignatureSeeds : RecoveryImage A → List UInt64

/-- `libc_start_main::main_address`. -/
def mainAddress (paths : X86Seeds ε A) : Checked ε (Option UInt64) :=
  if image.format ≠ .elf then pure none
  else if A = .aarch64 then pure none
  else paths.libcMainAddress image

/-- The entry point, the addresses that the container's tables name, and `main` of an ELF. -/
def collectSeeds (paths : X86Seeds ε A) (tables : List (UInt64 × SeedKind)) :
    Checked ε SeedMap := do
  let seeds := image.entryPoint.elim ∅ fun entry => addSeed image ∅ entry .entryPoint
  let seeds := tables.foldl (fun seeds named => addSeed image seeds named.1 named.2) seeds
  let main ← mainAddress image paths
  pure (main.elim seeds fun address => addSeed image seeds address .libcMain)

/-! ## Plausible entries -/

/-- `push imm8; push imm32; call rel32`. -/
def matchesX86SehEntrySignature (bytes : List UInt8) : Bool :=
  bytes[0]? == some 0x6a && bytes[2]? == some 0x68 && bytes[7]? == some 0xe8

def push : Mnemonic := .other "push"

/-- The other mnemonics that a relocation's function may begin with. -/
def entryMnemonics : List Mnemonic :=
  ["mov", "sub", "xor", "jmp", "lea", "cmp", "test", "call", "endbr32", "endbr64"].map .other

def plausibleRelocationFunction (address : UInt64) : Checked ε Bool :=
  if image.isDeadData address || !image.isPrimaryCodeAddress address then pure false
  else
    match image.decodeAt address with
    | .error _ => pure false
    | .ok first => do
      let op ← first.x86Instruction
      if op.mnemonic = push then
        if (image.opKinds op).head? = some .register then pure true
        else pure (decide (A = .x86) &&
          (image.bytesAt address 8).any matchesX86SehEntrySignature)
      else pure (decide (op.mnemonic ∈ entryMnemonics))

def plausibleSweepFunction (address : UInt64) : Checked ε Bool :=
  match image.decodeAt address with
  | .error _ => pure false
  | .ok first => do
    let op ← first.x86Instruction
    if op.mnemonic = push then pure true else plausibleRelocationFunction image address

/-! ## Fallback seeds -/

def maxPrologueSeedsPerSection : Nat := 8192

/-- AArch64 prologues begin at words of a section. -/
def addAarch64PrologueSeeds (isPrologueCandidate : UInt64 → Bool) (seeds : SeedMap) : SeedMap :=
  image.scannedSections.foldl (fun seeds (start, bytes) =>
    let words := (List.range ((bytes.length - 4 + 3) / 4)).filterMap fun word =>
      checkedAdd start (4 * word)
    ((words.filter isPrologueCandidate).take maxPrologueSeedsPerSection).foldl
      (·.insertKind · .prologue) seeds) seeds

def addPrologueSeeds (paths : X86Seeds ε A) (isPrologueCandidate : UInt64 → Bool)
    (seeds : SeedMap) : SeedMap :=
  if A = .aarch64 then addAarch64PrologueSeeds image isPrologueCandidate seeds
  else (paths.prologueSeeds image).foldl (·.insertKind · .prologue) seeds

def buildIdMarker : List UInt8 := "Go build ID: ".toList.map fun c => UInt8.ofNat c.toNat

/-- A PE for x86 whose `.text` carries the Go build marker in its first bytes. -/
def isGoImage : Bool :=
  decide (image.format = .pe) && decide (A = .x86 ∨ A = .x64) &&
    (image.sections.zip image.sectionFiles).any fun (mapped, file) =>
      file.1 == ".text" && (image.bytesAt mapped.address 10000).any fun bytes =>
        bytes.tails.any fun rest => buildIdMarker.isPrefixOf rest

def checkedAddSigned (a : UInt64) (offset : Int) : Option UInt64 :=
  let sum : Int := a.toNat + offset
  if 0 ≤ sum ∧ sum < 2 ^ 64 then some (UInt64.ofNat sum.toNat) else none

def toSigned (bits value : Nat) : Int :=
  if value < 2 ^ (bits - 1) then value else (value : Int) - 2 ^ bits

/-- Where a `call rel32` at the head of the bytes leads. -/
def callTarget (address : UInt64) : List UInt8 → Option UInt64
  | 0xe8 :: b₀ :: b₁ :: b₂ :: b₃ :: _ => do
    let next ← checkedAdd address 5
    checkedAddSigned next (toSigned 32 (fromLeBytes [b₀, b₁, b₂, b₃]).toNat)
  | _ => none

/-- The targets of all call encodings in the scanned sections, in order. -/
def sweptTargets : List UInt64 :=
  image.scannedSections.flatMap fun (start, bytes) =>
    (List.range (bytes.length - 4)).filterMap fun offset => do
      let address ← checkedAdd start offset
      callTarget address (bytes.drop offset)

/-- The sweep's test of one call target; true makes it a reference. -/
def sweepTarget (target : UInt64) : Checked ε Bool :=
  if image.isExecutableAddress target then plausibleSweepFunction image target else pure false

def maxSweepCallSeeds : Nat := 32768

/-- The sweep is for PE images with few seeds so far. -/
def sweeps (seeds : SeedMap) : Bool :=
  !(decide (image.format ≠ .pe) || decide (128 < seeds.entries.length)) && !isGoImage image

def addSweptCallSeeds (seeds : SeedMap) : Checked ε SeedMap :=
  if sweeps image seeds then do
    let references ← foldRun (fun references target => do
      let enters ← sweepTarget image target
      pure (if enters then OrdSet.insert references target else references)) ∅
      (sweptTargets image)
    pure ((references.toList.take maxSweepCallSeeds).foldl
      (·.insertKind · .sweepCallTarget) seeds)
  else pure seeds

def addVivisectFunctionSignatureSeeds (paths : X86Seeds ε A) (seeds : SeedMap) : SeedMap :=
  if A ≠ .x86 then seeds
  else (paths.functionSignatureSeeds image).foldl (·.insertKind · .functionSignature) seeds

end

end CapaX.Recovery
