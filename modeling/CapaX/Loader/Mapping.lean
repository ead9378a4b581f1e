import CapaX.Control.Logged
import CapaX.ElfOs.Reading
import CapaX.Recovery.Seeds

/-
  The mapping of an image into memory (`image.rs`): every loader goes through its sections or
  segments, asks `mapped_region` for each and keeps the bytes beside the section. The parsed headers
  are the input; what the loaders read of them is what the structures below hold. A run logs the
  regions that are allocated (`Event.allocated`). Load diagnostics are left out.
-/

namespace CapaX.Loader

open Collections Control Control.Logged ElfOs Recovery

/-- `MAX_MAPPED_IMAGE_BYTES`. -/
def maxMappedImageBytes : Nat := 256 * 1024 * 1024

inductive ImageError where
  | unsupportedArchitecture (format : ImageFormat) (machine : UInt16)
  | pe (message : String)
  | macho (message : String)
  | mapping (format : ImageFormat) (context : String)
  | addressOverflow (format : ImageFormat) (context : String)
  | delayImport (rva : UInt64) (context : String)

/-- A thunk of a delay import table. -/
inductive Thunk where
  | byName (rva : UInt64)
  | byOrdinal (ordinal : Nat)
  deriving DecidableEq, Repr

/-- A thunk that is bound at an address: a symbol of a library. -/
structure DelayBinding where
  address : UInt64
  thunk : Thunk
  dll : String
  symbol : String
  deriving DecidableEq

/-- What a run logs: a region of so many bytes, the tables of a delay import descriptor, and a thunk
    that is bound. -/
inductive Event where
  | allocated (length : Nat)
  | tables (iat int : UInt64)
  | bound (binding : DelayBinding)
  deriving DecidableEq

abbrev Loading := Logged ImageError Event

/-- `ok_or`. -/
def orFail {α : Type} (o : Option α) (error : ImageError) : Loading α :=
  match o with
  | some a => pure a
  | none => throwFault error

/-- `{:#x}`. -/
def hex (n : Nat) : String := "0x" ++ String.ofList (Nat.toDigits 16 n)

/-- The little-endian bytes of a number. -/
def leBytes (width value : Nat) : List UInt8 :=
  (List.range width).map fun i => UInt8.ofNat (value / 256 ^ i)

/-! ## Regions -/

def mappedRegion (bytes : ByteBuf) (fileOffset fileSize mappedSize : UInt64)
    (format : ImageFormat) : Loading (List UInt8) :=
  let mappedLen := mappedSize.toNat
  if maxMappedImageBytes < mappedLen then
    throwFault (.mapping format
      s!"region size {hex mappedLen} exceeds limit {hex maxMappedImageBytes}")
  else do
    let start := fileOffset.toNat
    let available := bytes.bytes.length - start
    let copyLen := min (min fileSize.toNat available) mappedLen
    emit (.allocated mappedLen)
    let mapped := List.replicate mappedLen 0
    if copyLen ≠ 0 then
      match ElfOs.get bytes.bytes start (start + copyLen) with
      | some source => pure (source ++ mapped.drop copyLen)
      | none => pure mapped
    else pure mapped

def accountMapping (total size : Nat) : Loading Nat :=
  match ElfOs.checkedAdd total size with
  | none => throwFault (.pe "mapped image size overflow")
  | some total =>
    if maxMappedImageBytes < total then
      throwFault (.pe s!"mapped image size {hex total} exceeds limit {hex maxMappedImageBytes}")
    else pure total

/-- Where a section came from. -/
structure SectionFile where
  name : String
  offset : UInt64
  size : UInt64

/-- What a loader has mapped so far. `files` and `mappedBytes` are parallel to `sections`; `total`
    is the running sum, where a loader keeps one. -/
structure Regions where
  sections : List MappedSection
  files : List SectionFile
  mappedBytes : List (List UInt8)
  deadData : List (UInt64 × UInt64)
  uninitialized : List (UInt64 × UInt64)
  primaryCode : List (UInt64 × UInt64)
  total : Nat

namespace Regions

def empty : Regions := ⟨[], [], [], [], [], [], 0⟩

def push (regions : Regions) (mapped : MappedSection) (file : SectionFile) (data : List UInt8)
    (total : Nat) : Regions :=
  { regions with
    sections := regions.sections ++ [mapped]
    files := regions.files ++ [file]
    mappedBytes := regions.mappedBytes ++ [data]
    total }

def pushDead (regions : Regions) (test : Bool) (start stop : UInt64) : Regions :=
  if test then { regions with deadData := regions.deadData ++ [(start, stop)] } else regions

def pushUninitialized (regions : Regions) (test : Bool) (start stop : UInt64) : Regions :=
  if test then { regions with uninitialized := regions.uninitialized ++ [(start, stop)] }
  else regions

def pushCode (regions : Regions) (test : Bool) (start stop : UInt64) : Regions :=
  if test then { regions with primaryCode := regions.primaryCode ++ [(start, stop)] } else regions

end Regions

def alignUp (value alignment : UInt64) : Option UInt64 :=
  if alignment = 0 then some value
  else do
    let pad ← checkedSub alignment 1
    let sum ← checkedAdd value pad.toNat
    some (sum / alignment * alignment)

/-- A mapped image, before its imports are bound. -/
structure Mapped where
  architecture : Architecture
  imageBase : UInt64
  regions : Regions

/-- `external_bindings` and `import_locations`. -/
structure Bindings where
  external : OrdMap UInt64 (List String)
  locations : OrdMap UInt64 String

namespace Mapped

variable (m : Mapped)

/-- The image as recovery reads it, with the decoder at work on it. -/
def image (bindings : Bindings)
    (decodeAt : UInt64 → Except String (DecodedInstruction m.architecture)) :
    LoadedImage m.architecture where
  sections := m.regions.sections
  externalBindings := bindings.external
  uninitialized := m.regions.uninitialized
  mappedBytes := m.regions.mappedBytes
  decodeAt := decodeAt

def bytesAt (address : UInt64) (maxLen : Nat) : Option (List UInt8) :=
  (m.image ⟨∅, ∅⟩ fun _ => .error "not decoded").bytesAt address maxLen

end Mapped

def Bindings.addExternalBinding (bindings : Bindings) (address : UInt64) (names : List String) :
    Bindings :=
  { bindings with
    external := bindings.external.upsert address fun bound =>
      names.foldl (fun bound name => if bound.contains name then bound else bound ++ [name])
        (bound.getD []) }

def Bindings.insertLocation (bindings : Bindings) (address : UInt64) (name : String) : Bindings :=
  { bindings with locations := bindings.locations.upsert address fun _ => name }

/-! ## PE -/

structure PeSection where
  name : String
  virtualAddress : UInt32
  virtualSize : UInt32
  sizeOfRawData : UInt32
  pointerToRawData : UInt32
  characteristics : UInt32

structure DataDirectory where
  virtualAddress : UInt32
  size : UInt32

structure OptionalHeader where
  sectionAlignment : UInt32
  fileAlignment : UInt32
  baseOfCode : UInt64
  sizeOfCode : UInt64
  dataDirectories : List (Option DataDirectory)

structure Pe where
  machine : UInt16
  imageBase : UInt64
  entry : UInt32
  pePointer : UInt32
  sizeOfOptionalHeader : UInt16
  numberOfSections : UInt16
  optionalHeader : Option OptionalHeader
  sections : List PeSection

def scnCntCode : UInt32 := 0x20
def scnCntUninitializedData : UInt32 := 0x80
def scnMemExecute : UInt32 := 0x20000000
def scnMemRead : UInt32 := 0x40000000
def scnMemWrite : UInt32 := 0x80000000

def peArchitecture (machine : UInt16) : Loading Architecture :=
  if machine = 0x14c then pure .x86
  else if machine = 0x8664 then pure .x64
  else if machine = 0xaa64 then pure .aarch64
  else throwFault (.unsupportedArchitecture .pe machine)

/-- The size of the headers up to the end of the section table. -/
def headerSize (pe : Pe) : Option UInt64 := do
  let value ← checkedAdd pe.pePointer.toUInt64 4
  let value ← checkedAdd value 20
  let value ← checkedAdd value pe.sizeOfOptionalHeader.toNat
  let table ← ElfOs.checkedMul pe.numberOfSections.toNat 40
  checkedAdd value table

/-- The virtual size of a section, how much of it is read from the file, and whether its mapping is
    aligned; `none` for a section that is not mapped. -/
def sectionSizes (bytes : ByteBuf) (mapped : PeSection) (next : Option PeSection) :
    Loading (Option (UInt64 × UInt64 × Bool)) :=
  let declaredVirtualSize := mapped.virtualSize.toUInt64
  let declaredRawSize := mapped.sizeOfRawData.toUInt64
  if declaredVirtualSize = 0 ∨ declaredRawSize = 0 then
    match next with
    | none => pure none
    | some next => do
      let gap ← orFail (checkedSub next.virtualAddress.toUInt64 mapped.virtualAddress.toUInt64)
        (.pe s!"section {mapped.name} ends after the following section")
      pure (some (gap, 0, false))
  else if declaredRawSize < declaredVirtualSize ∧ bytes.bytes.length < declaredRawSize.toNat then
    pure none
  else
    pure (some (declaredVirtualSize, min declaredRawSize declaredVirtualSize, true))

def mapSection (pe : Pe) (header : OptionalHeader) (bytes : ByteBuf) (mapped : PeSection)
    (next : Option PeSection) (regions : Regions) : Loading Regions := do
  let address ← orFail (checkedAdd pe.imageBase mapped.virtualAddress.toNat)
    (.addressOverflow .pe "section address")
  match ← sectionSizes bytes mapped next with
  | none => pure regions
  | some (virtualSize, readSize, alignMapping) =>
    let fileAlignment := header.fileAlignment.toUInt64
    let mapSize ← if alignMapping && fileAlignment != 0 then
        orFail (alignUp virtualSize fileAlignment) (.addressOverflow .pe "aligned section mapping")
      else pure virtualSize
    if mapSize = 0 then pure regions
    else
      let fileOffset := mapped.pointerToRawData.toUInt64
      let available := UInt64.ofNat (bytes.bytes.length - fileOffset.toNat)
      let fileSize := min readSize available
      let data ← mappedRegion bytes fileOffset fileSize mapSize .pe
      let total ← accountMapping regions.total data.length
      let sectionRva := mapped.virtualAddress.toUInt64
      let codeEnd := saturatingAdd header.baseOfCode header.sizeOfCode.toNat
      let entryRva := pe.entry.toUInt64
      let primary := mapped.characteristics &&& (scnMemExecute ||| scnCntCode) ≠ 0 ∨
        (header.baseOfCode ≤ sectionRva ∧ sectionRva < codeEnd) ∨
        (sectionRva ≤ entryRva ∧
          entryRva < saturatingAdd sectionRva mapped.virtualSize.toNat)
      let directories := (header.dataDirectories.filterMap id).map (·.virtualAddress)
      let dead := (directories.filter (· ≠ 0)).contains mapped.virtualAddress ||
        mapped.characteristics &&& (scnCntCode ||| scnMemExecute ||| scnMemWrite) == 0
      pure <|
        ((regions.push
          { address
            virtualSize := mapSize
            permissions :=
              { read := mapped.characteristics &&& scnMemRead ≠ 0
                write := mapped.characteristics &&& scnMemWrite ≠ 0
                execute := primary } }
          ⟨mapped.name, fileOffset, fileSize⟩ data total).pushDead dead address
            (saturatingAdd address virtualSize.toNat)).pushUninitialized
          (mapped.characteristics &&& scnCntUninitializedData ≠ 0) address
            (saturatingAdd address mapSize.toNat) |>.pushCode primary address
              (saturatingAdd address mapSize.toNat)

def mapSections (pe : Pe) (header : OptionalHeader) (bytes : ByteBuf) :
    List PeSection → Regions → Loading Regions
  | [], regions => pure regions
  | mapped :: rest, regions => do
    let regions ← mapSection pe header bytes mapped rest.head? regions
    mapSections pe header bytes rest regions

def mapPe (pe : Pe) (header : OptionalHeader) (bytes : ByteBuf) : Loading Regions := do
  let sectionAlignment := header.sectionAlignment.toUInt64
  if sectionAlignment = 0 then throwFault (.pe "section alignment is zero")
  else
    let size ← orFail (headerSize pe) (.addressOverflow .pe "header mapping")
    let fileSize := min size (UInt64.ofNat bytes.bytes.length)
    if fileSize ≠ size then throwFault (.pe "truncated PE header")
    else
      let mapSize ← orFail (alignUp size sectionAlignment)
        (.addressOverflow .pe "aligned header mapping")
      let data ← mappedRegion bytes 0 fileSize mapSize .pe
      let total ← accountMapping 0 data.length
      let regions := Regions.empty.push
        { address := pe.imageBase
          virtualSize := mapSize
          permissions := ⟨true, false, false⟩ }
        ⟨"PE_Header", 0, fileSize⟩ data total
      mapSections pe header bytes pe.sections regions

/-! ## ELF -/

structure ProgramHeader where
  pType : UInt32
  pFlags : UInt32
  pOffset : UInt64
  pVaddr : UInt64
  pFilesz : UInt64
  pMemsz : UInt64

def ptLoad : UInt32 := 1

def fileSizeOf (bytes : ByteBuf) (header : ProgramHeader) : UInt64 :=
  min header.pFilesz (UInt64.ofNat (bytes.bytes.length - header.pOffset.toNat))

def mapSegment (bytes : ByteBuf) (loadBias : UInt64) (regions : Regions)
    (entry : ProgramHeader × Nat) : Loading Regions := do
  let header := entry.1
  let fileSize := fileSizeOf bytes header
  let data ← mappedRegion bytes header.pOffset fileSize fileSize .elf
  let address ← orFail (checkedAdd header.pVaddr loadBias.toNat)
    (.addressOverflow .elf "segment address")
  pure <| (regions.push
    { address
      virtualSize := max header.pMemsz header.pFilesz
      permissions :=
        { read := header.pFlags &&& 4 ≠ 0
          write := header.pFlags &&& 2 ≠ 0
          execute := header.pFlags &&& 1 ≠ 0 } }
    ⟨s!"PT_LOAD[{entry.2}]", header.pOffset, fileSize⟩ data regions.total).pushCode
      (header.pFlags &&& 1 ≠ 0) address (saturatingAdd address header.pMemsz.toNat)

/-- The segments to load, with their places in the table. -/
def loadSegments (headers : List ProgramHeader) : List (ProgramHeader × Nat) :=
  headers.zipIdx.filter fun entry => entry.1.pType = ptLoad

def mapElf (headers : List ProgramHeader) (loadBias : UInt64) (bytes : ByteBuf) :
    Loading Regions :=
  foldRun (mapSegment bytes loadBias) Regions.empty (loadSegments headers)

/-! ## Mach-O -/

structure MachSegment where
  segname : String
  vmaddr : UInt64
  vmsize : UInt64
  fileoff : UInt64
  filesize : UInt64
  initprot : UInt32
  nsects : UInt32
  cmdsize : UInt32

/-- `u32::checked_mul` and `u32::checked_add` of the sizes of a segment command and its sections. -/
def expectedCmdsize (nsects : UInt32) : Option UInt32 :=
  let size := nsects.toNat * 80
  if size < 2 ^ 32 ∧ 72 + size < 2 ^ 32 then some (UInt32.ofNat (72 + size)) else none

def checkSegment (bytes : ByteBuf) (seg : MachSegment) : Loading Unit := do
  let expected ← orFail (expectedCmdsize seg.nsects)
    (.macho "segment nsects overflows cmdsize")
  if expected ≠ seg.cmdsize then
    throwFault (.macho (s!"segment {seg.segname} declares {seg.nsects} sections, " ++
      s!"inconsistent with cmdsize {seg.cmdsize}"))
  else if seg.vmsize < seg.filesize then
    throwFault (.macho (s!"segment {seg.segname} filesize {hex seg.filesize.toNat} " ++
      s!"exceeds vmsize {hex seg.vmsize.toNat}"))
  else if (ElfOs.checkedAdd seg.fileoff.toNat seg.filesize.toNat).any
      fun stop => decide (stop ≤ bytes.bytes.length) then
    pure ()
  else
    throwFault (.macho (s!"segment {seg.segname} file range [{hex seg.fileoff.toNat}, " ++
      s!"{hex seg.fileoff.toNat}+{hex seg.filesize.toNat}) is past the end of the file"))

/-- A segment against those behind it. -/
def checkOverlaps (seg : MachSegment) (stop : UInt64) : List MachSegment → Loading Unit
  | [] => pure ()
  | other :: rest => do
    if other.filesize = 0 then checkOverlaps seg stop rest
    else
      let otherStop ← orFail (checkedAdd other.fileoff other.filesize.toNat)
        (.macho s!"segment {other.segname} fileoff+filesize overflows")
      if seg.fileoff < otherStop ∧ other.fileoff < stop then
        throwFault (.macho
          s!"segments {seg.segname} and {other.segname} have overlapping file ranges")
      else checkOverlaps seg stop rest

def validateNoOverlappingMachoSegments : List MachSegment → Loading Unit
  | [] => pure ()
  | seg :: rest => do
    if seg.filesize = 0 then validateNoOverlappingMachoSegments rest
    else
      let stop ← orFail (checkedAdd seg.fileoff seg.filesize.toNat)
        (.macho s!"segment {seg.segname} fileoff+filesize overflows")
      checkOverlaps seg stop rest
      validateNoOverlappingMachoSegments rest

def mapMachSegment (bytes : ByteBuf) (regions : Regions) (seg : MachSegment) : Loading Regions :=
  if seg.segname = "__PAGEZERO" then pure regions
  else do
    let data ← mappedRegion bytes seg.fileoff seg.filesize seg.vmsize .macho
    let total ← accountMapping regions.total data.length
    pure <| (regions.push
      { address := seg.vmaddr
        virtualSize := seg.vmsize
        permissions :=
          { read := seg.initprot &&& 1 ≠ 0
            write := seg.initprot &&& 2 ≠ 0
            execute := seg.initprot &&& 4 ≠ 0 } }
      ⟨seg.segname, seg.fileoff, min seg.filesize seg.vmsize⟩ data total).pushCode
        (seg.initprot &&& 4 ≠ 0) seg.vmaddr (saturatingAdd seg.vmaddr seg.vmsize.toNat)

def mapMacho (segments : List MachSegment) (bytes : ByteBuf) : Loading Regions := do
  let _ ← foldRun (fun _ seg => checkSegment bytes seg) () segments
  validateNoOverlappingMachoSegments segments
  foldRun (mapMachSegment bytes) Regions.empty segments

/-! ## Shellcode -/

/-- `SHELLCODE_BASE`. -/
def shellcodeBase : UInt64 := 0x690000

def mapShellcode (bytes : ByteBuf) : Regions :=
  let size := UInt64.ofNat bytes.bytes.length
  (Regions.empty.push
    { address := shellcodeBase
      virtualSize := size
      permissions := ⟨true, true, true⟩ }
    ⟨s!"shellcode_{hex shellcodeBase.toNat}", 0, size⟩ bytes.bytes 0).pushCode true shellcodeBase
      (saturatingAdd shellcodeBase size.toNat)

end CapaX.Loader
