import CapaX.Loader.DelayImports

/-
  The loaders (`image.rs`): `from_pe`, `from_elf`, `from_macho` and `from_shellcode`, from the parsed
  headers to the mapped image with its bindings. The import tables that the parsers read are a
  parameter; delay imports and ELF relocations are not.

-/

namespace CapaX.Loader

open Collections Control Control.Logged ElfOs Recovery

/-! ## PE -/

def fromPe (pe : Pe) (bytes : ByteBuf) (imports : Mapped → Except ImageError Bindings)
    (names : ImportNames) : Loading (Mapped × Bindings) := do
  let architecture ← peArchitecture pe.machine
  let _ ← if pe.entry = 0 then pure pe.imageBase
    else orFail (checkedAdd pe.imageBase pe.entry.toNat) (.addressOverflow .pe "entry point")
  let header ← orFail pe.optionalHeader (.pe "missing optional header")
  let regions ← mapPe pe header bytes
  let m : Mapped := ⟨architecture, pe.imageBase, regions⟩
  match imports m with
  | .error error => throwFault error
  | .ok bindings =>
    let bindings ← m.loadPeDelayImports names header bindings
    pure (m, bindings)

/-! ## ELF -/

/-- A section header with its name, where the table has it. -/
structure ElfSection where
  name : Option String
  shAddr : UInt64
  shSize : UInt64

/-- A dynamic relocation with the name of its symbol, where there is one. -/
structure ElfRelocation where
  rOffset : UInt64
  rSym : Nat
  rType : UInt32
  symbol : Option String

structure Elf where
  eMachine : UInt16
  eType : UInt16
  entry : UInt64
  programHeaders : List ProgramHeader
  sectionHeaders : List ElfSection
  relocations : List ElfRelocation

def elfArchitecture (machine : UInt16) : Loading Architecture :=
  if machine = 3 then pure .x86
  else if machine = 62 then pure .x64
  else if machine = 183 then pure .aarch64
  else throwFault (.unsupportedArchitecture .elf machine)

def vivElfDynBase : UInt64 := 0x02000000

def ghidraAarch64ElfDynBase : UInt64 := 0x00100000

/-- The segments to load. -/
def loads (elf : Elf) : List ProgramHeader :=
  elf.programHeaders.filter fun header => header.pType = ptLoad

def rawImageBase (elf : Elf) : UInt64 :=
  ((loads elf).map (·.pVaddr)).min?.getD 0

/-- Position-independent files are placed at the base of the architecture. -/
def loadBias (elf : Elf) : UInt64 :=
  if elf.eType = 3 then
    let dynBase := if elf.eMachine = 183 then ghidraAarch64ElfDynBase else vivElfDynBase
    (checkedSub dynBase (rawImageBase elf)).getD 0
  else 0

def checkPlt (bias : UInt64) (entry : ElfSection) : Loading Unit :=
  match entry.name with
  | none => pure ()
  | some name =>
    if name.startsWith ".plt" then do
      let start ← orFail (checkedAdd entry.shAddr bias.toNat)
        (.addressOverflow .elf "PLT section address")
      let _ ← orFail (checkedAdd start entry.shSize.toNat)
        (.addressOverflow .elf "PLT section size")
      pure ()
    else pure ()

/-- `copy_from_slice` into a range of a region, if there is one. -/
def writeBytes (data : List UInt8) (offset : Nat) (source : List UInt8) : List UInt8 :=
  if offset + source.length ≤ data.length then
    data.take offset ++ source ++ data.drop (offset + source.length)
  else data

/-- Write into the region that contains an address. -/
def Mapped.write (m : Mapped) (address : UInt64) (source : List UInt8) : Mapped :=
  match m.regions.sections.zipIdx.find? fun entry => entry.1.containsVa address with
  | none => m
  | some (mapped, index) =>
    { m with regions := { m.regions with
        mappedBytes := m.regions.mappedBytes.modify index fun data =>
          writeBytes data (address - mapped.address).toNat source } }

/-- An unnamed relative relocation adds the image base to the word it is at. -/
def relocateRelative (bias : UInt64) (m : Mapped) (relocation : ElfRelocation) :
    Loading Mapped := do
  let address ← orFail (checkedAdd relocation.rOffset bias.toNat)
    (.addressOverflow .elf "relative relocation address")
  let width := m.architecture.pointerWidth
  match m.bytesAt address width with
  | some bytes =>
    if bytes.length = width then
      pure (m.write address (leBytes width (fromLeBytes bytes + m.imageBase).toNat))
    else pure m
  | none => pure m

/-- The relocation types that name an import: `R_386_JMP_SLOT`, `R_X86_64_GLOB_DAT` and
    `R_X86_64_IRELATIVE`. -/
def importTypes : List UInt32 := [7, 6, 37]

def relocate (vivisectCompat : Bool) (bias : UInt64) (state : Mapped × Bindings)
    (relocation : ElfRelocation) : Loading (Mapped × Bindings) := do
  let (m, bindings) := state
  let compat := vivisectCompat && m.architecture != .aarch64
  let m ← if compat && relocation.rSym == 0 && relocation.rType == 8 then
      relocateRelative bias m relocation
    else pure m
  match relocation.symbol with
  | none => pure (m, bindings)
  | some name =>
    if name = "" then pure (m, bindings)
    else
      let address ← orFail (checkedAdd relocation.rOffset bias.toNat)
        (.addressOverflow .elf "relocation binding")
      if compat && !importTypes.contains relocation.rType then pure (m, bindings)
      else
        pure (m, (bindings.addExternalBinding address [name]).insertLocation address s!"*.{name}")

def fromElf (elf : Elf) (bytes : ByteBuf) (vivisectCompat : Bool) :
    Loading (Mapped × Bindings) := do
  let architecture ← elfArchitecture elf.eMachine
  let bias := loadBias elf
  let imageBase ← orFail (checkedAdd (rawImageBase elf) bias.toNat)
    (.addressOverflow .elf "image base")
  let _ ← if elf.entry = 0 then pure imageBase
    else orFail (checkedAdd elf.entry bias.toNat) (.addressOverflow .elf "entry point")
  let regions ← mapElf elf.programHeaders bias bytes
  let _ ← foldRun (fun _ entry => checkPlt bias entry) () elf.sectionHeaders
  foldRun (relocate vivisectCompat bias) (⟨architecture, imageBase, regions⟩, ⟨∅, ∅⟩)
    elf.relocations

/-! ## Mach-O -/

/-- A slice of a Mach-O file, with the architecture it was selected for. -/
structure Macho where
  is64 : Bool
  arch : String
  sizeofcmds : UInt32
  commands : List (UInt64 × UInt64)
  segments : List MachSegment

/-- Each command follows the one before it and stays inside the table. -/
def checkCommand (limit : UInt64) (expected : UInt64) (command : UInt64 × UInt64) :
    Loading UInt64 := do
  let (offset, size) := command
  if size = 0 then
    throwFault (.macho s!"load command at offset {hex offset.toNat} has cmdsize 0")
  else if size % 4 ≠ 0 then
    throwFault (.macho
      s!"load command at offset {hex offset.toNat} has unaligned cmdsize {size}")
  else if offset ≠ expected then
    throwFault (.macho (s!"load command at offset {hex offset.toNat} does not immediately " ++
      s!"follow the previous command (expected {hex expected.toNat})"))
  else
    let stop ← orFail (checkedAdd offset size.toNat) (.macho "load command offset+cmdsize overflow")
    if limit < stop then
      throwFault (.macho (s!"load command at offset {hex offset.toNat} ends at " ++
        s!"{hex stop.toNat}, past the sizeofcmds boundary {hex limit.toNat}"))
    else pure stop

def validateMachoLoadCommands (macho : Macho) (slice : ByteBuf) : Loading Unit := do
  let limit ← orFail (checkedAdd (32 : UInt64) macho.sizeofcmds.toNat) (.macho "sizeofcmds overflow")
  let _ ← foldRun (checkCommand limit) 32 macho.commands
  if slice.bytes.length < limit.toNat then
    throwFault (.macho "file is shorter than the declared load-command region")
  else pure ()

def machoArchitecture (arch : String) : Loading Architecture :=
  if arch = "x86_64" then pure .x64
  else if arch = "arm64" ∨ arch = "arm64e" then pure .aarch64
  else throwFault (.macho
    s!"internal error: select_macho_slice returned unsupported arch {arch}")

/-- The address of `__TEXT`, else the lowest of a segment. -/
def machoImageBase (segments : List MachSegment) : UInt64 :=
  match segments.find? fun seg => seg.segname == "__TEXT" with
  | some seg => seg.vmaddr
  | none => (segments.map (·.vmaddr)).min?.getD 0

def fromMacho (macho : Macho) (slice : ByteBuf) (imports : Mapped → Bindings) :
    Loading (Mapped × Bindings) := do
  if !macho.is64 then throwFault (.macho "32-bit Mach-O is not supported")
  else
    let architecture ← machoArchitecture macho.arch
    validateMachoLoadCommands macho slice
    let regions ← mapMacho macho.segments slice
    let m : Mapped := ⟨architecture, machoImageBase macho.segments, regions⟩
    pure (m, imports m)

/-! ## Shellcode -/

def fromShellcode (bytes : ByteBuf) (architecture : Architecture) : Mapped × Bindings :=
  (⟨architecture, shellcodeBase, mapShellcode bytes⟩, ⟨∅, ∅⟩)

/-! ## Inputs -/

/-- A file with its parsed headers. -/
inductive ImageFile where
  | pe (pe : Pe) (bytes : ByteBuf) (imports : Mapped → Except ImageError Bindings)
    (names : ImportNames)
  | elf (elf : Elf) (bytes : ByteBuf) (vivisectCompat : Bool)
  | macho (macho : Macho) (slice : ByteBuf) (imports : Mapped → Bindings)

def loadFile : ImageFile → Loading (Mapped × Bindings)
  | .pe pe bytes imports names => fromPe pe bytes imports names
  | .elf elf bytes vivisectCompat => fromElf elf bytes vivisectCompat
  | .macho macho slice imports => fromMacho macho slice imports

/-- What an image is built from. -/
inductive Source where
  | file (file : ImageFile)
  | shellcode (bytes : ByteBuf) (architecture : Architecture)

def load : Source → Loading (Mapped × Bindings)
  | .file file => loadFile file
  | .shellcode bytes architecture => pure (fromShellcode bytes architecture)

end CapaX.Loader
