import CapaX.ElfOs.Reading

/-
  The structures of an ELF file (`Elf` in `elf_os.rs`): program and section headers with their
  contents, the dynamic entries, string tables, version requirements, and reads at virtual
  addresses. A header that cannot be read is left out of its table.
-/

namespace CapaX.ElfOs

open Control Logged

/-- A file whose base header parsed. -/
structure Elf where
  buf : ByteBuf
  bitness : Nat
  bigEndian : Bool
  ePhoff : Nat
  ePhentsize : Nat
  ePhnum : Nat
  eShoff : Nat
  eShentsize : Nat
  eShnum : Nat
  eShstrndx : Nat

def elfMagic : List UInt8 := [0x7f, 0x45, 0x4c, 0x46]

/-- The bitness of `EI_CLASS`. -/
def classBitness : UInt8 → Option Nat
  | 1 => some 32
  | 2 => some 64
  | _ => none

/-- Whether `EI_DATA` is big endian. -/
def dataBigEndian : UInt8 → Option Bool
  | 1 => some false
  | 2 => some true
  | _ => none

def Elf.parse (buf : ByteBuf) : Option Elf := do
  if !elfMagic.isPrefixOf buf.bytes then none
  else
    let eiClass : UInt8 ← buf.bytes[4]?
    let eiData : UInt8 ← buf.bytes[5]?
    let bitness ← classBitness eiClass
    let be ← dataBigEndian eiData
    if bitness = 32 then
      let ePhoff ← getU32 buf.bytes 0x1c be
      let eShoff ← getU32 buf.bytes 0x20 be
      let ePhentsize ← getU16 buf.bytes 0x2a be
      let ePhnum ← getU16 buf.bytes 0x2c be
      let eShentsize ← getU16 buf.bytes 0x2e be
      let eShnum ← getU16 buf.bytes 0x30 be
      let eShstrndx ← getU16 buf.bytes 0x32 be
      some ⟨buf, bitness, be, ePhoff, ePhentsize, ePhnum, eShoff, eShentsize, eShnum, eShstrndx⟩
    else
      let ePhoff ← getU64 buf.bytes 0x20 be
      let eShoff ← getU64 buf.bytes 0x28 be
      let ePhentsize ← getU16 buf.bytes 0x36 be
      let ePhnum ← getU16 buf.bytes 0x38 be
      let eShentsize ← getU16 buf.bytes 0x3a be
      let eShnum ← getU16 buf.bytes 0x3c be
      let eShstrndx ← getU16 buf.bytes 0x3e be
      some ⟨buf, bitness, be, ePhoff, ePhentsize, ePhnum, eShoff, eShentsize, eShnum, eShstrndx⟩

/-- The contents a header points at, copied. -/
def contents (buf : ByteBuf) (offset size : Nat) : Reader (List UInt8) := do
  let stop ← ofOption (checkedAdd offset size)
  let bytes ← ofOption (get buf.bytes offset stop)
  ofRun (request bytes.length)
  pure bytes

namespace Elf

variable (elf : Elf)

/-! ## Program and section headers -/

def parseProgramHeader (i : Nat) : Reader Phdr := do
  let off ← ofOption (checkedAdd elf.ePhoff (i * elf.ePhentsize))
  let be := elf.bigEndian
  let file := elf.buf.bytes
  if elf.bitness = 32 then
    let pType ← ofOption (getU32 file off be)
    let pOffset ← uintAt 4 file off 0x4 be
    let pVaddr ← uintAt 4 file off 0x8 be
    let pFilesz ← uintAt 4 file off 0x10 be
    let pMemsz ← uintAt 4 file off 0x14 be
    let pFlags ← uintAt 4 file off 0x18 be
    let buf ← contents elf.buf pOffset pFilesz
    pure ⟨pType, pVaddr, pMemsz, pFlags, buf⟩
  else
    let pType ← ofOption (getU32 file off be)
    let pFlags ← uintAt 4 file off 0x4 be
    let pOffset ← uintAt 8 file off 0x8 be
    let pVaddr ← uintAt 8 file off 0x10 be
    let pFilesz ← uintAt 8 file off 0x20 be
    let pMemsz ← uintAt 8 file off 0x28 be
    let buf ← contents elf.buf pOffset pFilesz
    pure ⟨pType, pVaddr, pMemsz, pFlags, buf⟩

def programHeaders : Run (List Phdr) := do
  let phdrs ← collect elf.parseProgramHeader (List.range elf.ePhnum)
  grown phdrs.length
  pure phdrs

/-- Sections without contents in the file have the type `SHT_NOBITS`. -/
def shtNobits : Nat := 0x8

def sectionContents (shType offset size : Nat) : Reader (List UInt8) :=
  if shType = shtNobits then pure [] else contents elf.buf offset size

def parseSectionHeader (i : Nat) : Reader Shdr := do
  let off ← ofOption (checkedAdd elf.eShoff (i * elf.eShentsize))
  let be := elf.bigEndian
  let file := elf.buf.bytes
  let width := wordWidth elf.bitness
  let shName ← ofOption (getU32 file off be)
  let shType ← uintAt 4 file off 0x4 be
  if elf.bitness = 32 then
    let shAddr ← uintAt width file off 0xc be
    let shOffset ← uintAt width file off 0x10 be
    let shSize ← uintAt width file off 0x14 be
    let shLink ← uintAt 4 file off 0x18 be
    let buf ← elf.sectionContents shType shOffset shSize
    pure ⟨shName, shType, shAddr, shLink, buf⟩
  else
    let shAddr ← uintAt width file off 0x10 be
    let shOffset ← uintAt width file off 0x18 be
    let shSize ← uintAt width file off 0x20 be
    let shLink ← uintAt 4 file off 0x28 be
    let buf ← elf.sectionContents shType shOffset shSize
    pure ⟨shName, shType, shAddr, shLink, buf⟩

def sectionHeaders : Run (List Shdr) := do
  let shdrs ← collect elf.parseSectionHeader (List.range elf.eShnum)
  grown shdrs.length
  pure shdrs

def shstrtab : Reader Shdr := elf.parseSectionHeader elf.eShstrndx

end Elf

def Shdr.nameAt (shdr : Shdr) (offset : Nat) : Reader (List UInt8) := readCstr shdr.buf offset

def Shdr.getName (shdr : Shdr) (elf : Elf) : Reader (List UInt8) := do
  let names ← elf.shstrtab
  names.nameAt shdr.nameIdx

/-- `as u16` on a section link. -/
def linkIndex (shdr : Shdr) : Nat := shdr.link % 2 ^ 16

/-! ## Version requirements -/

/-- The versions needed of each library, as the set of pairs of a library and a version. -/
abbrev Versions := List (List UInt8 × List UInt8)

def insertVersion (soName abi : List UInt8) (out : Versions) : Run Versions := do
  request soName.length
  let out := if (soName, abi) ∈ out then out else out ++ [(soName, abi)]
  inserted out.length
  pure out

/-- What an entry of the table says before its versions. -/
structure VersionNeed where
  cnt : Nat
  soName : List UInt8
  auxOffset : Nat
  next : Nat

def versionNeed (be : Bool) (buf linked : List UInt8) (vnOffset : Nat) : Reader VersionNeed := do
  let vnVersion ← ofOption (getU16 buf vnOffset be)
  let vnCnt ← uintAt 2 buf vnOffset 2 be
  let vnFile ← uintAt 4 buf vnOffset 4 be
  let vnAux ← uintAt 4 buf vnOffset 8 be
  let vnNext ← uintAt 4 buf vnOffset 12 be
  if vnVersion ≠ 1 then ofOption none
  else
    let soName ← readCstr linked vnFile
    let auxOffset ← ofOption (checkedAdd vnOffset vnAux)
    pure ⟨vnCnt, soName, auxOffset, vnNext⟩

/-- The name and the step of one version. -/
def versionAux (be : Bool) (buf : List UInt8) (vnaOffset : Nat) : Reader (Nat × Nat) := do
  let vnaName ← uintAt 4 buf vnaOffset 8 be
  let vnaNext ← uintAt 4 buf vnaOffset 12 be
  pure (vnaName, vnaNext)

def insertFound (soName : List UInt8) (abi : Option (List UInt8)) (out : Versions) :
    Run Versions :=
  match abi with
  | some abi => insertVersion soName abi out
  | none => pure out

/-- The versions of one library; `none` stands for a `break`. -/
def auxEntries (be : Bool) (buf linked soName : List UInt8) : Nat → Nat → Versions → Run Versions
  | 0, _, out => pure out
  | cnt + 1, vnaOffset, out => do
    match ← (versionAux be buf vnaOffset).run with
    | none => pure out
    | some (vnaName, vnaNext) => do
      let abi ← (readCstr linked vnaName).run
      let out ← insertFound soName abi out
      if vnaNext = 0 then pure out
      else
        match checkedAdd vnaOffset vnaNext with
        | none => pure out
        | some nextOffset => auxEntries be buf linked soName cnt nextOffset out

/-- The entries of a version table from an offset on. The offset grows, so the loop ends before
    the steps run out. -/
def needEntries (be : Bool) (buf linked : List UInt8) : Nat → Nat → Versions → Run Versions
  | 0, _, _ => throwFault .diverges
  | steps + 1, vnOffset, out => do
    match ← (versionNeed be buf linked vnOffset).run with
    | none => pure out
    | some need => do
      let out ← auxEntries be buf linked need.soName need.cnt need.auxOffset out
      if need.next = 0 then pure out
      else
        match checkedAdd vnOffset need.next with
        | none => pure out
        | some nextOffset => needEntries be buf linked steps nextOffset out

def shtGnuVerneed : Nat := 0x6ffffffe

def sectionVersions (elf : Elf) (out : Versions) (shdr : Shdr) : Run Versions :=
  if shdr.shType ≠ shtGnuVerneed then pure out
  else do
    match ← (elf.parseSectionHeader (linkIndex shdr)).run with
    | none => pure out
    | some linked =>
      needEntries elf.bigEndian shdr.buf linked.buf (shdr.buf.length + 1) 0 out

namespace Elf

variable (elf : Elf)

def versionsNeeded : Run Versions := do
  let shdrs ← elf.sectionHeaders
  foldRun (sectionVersions elf) [] shdrs

def ptInterp : Nat := 0x3

def linker : Reader (List UInt8) := do
  let phdrs ← ofRun elf.programHeaders
  let phdr ← ofOption (phdrs.find? fun phdr => phdr.pType == ptInterp)
  readCstr phdr.buf 0

end Elf

/-! ## Dynamic entries -/

/-- The tag and the value at an offset; both reads are made. -/
def dynamicEntry (be : Bool) (bitness : Nat) (buf : List UInt8) (offset : Nat) :
    Reader (Nat × Nat) := OptionT.mk do
  let width := wordWidth bitness
  let value ← (uintAt width buf offset width be).run
  pure ((getUint width buf offset be).bind fun tag => value.map fun value => (tag, value))

def dynamicLoop (be : Bool) (bitness : Nat) (buf : List UInt8) :
    Nat → Nat → List (Nat × Nat) → Run (List (Nat × Nat))
  | 0, _, _ => throwFault .diverges
  | steps + 1, offset, out => do
    match ← (dynamicEntry be bitness buf offset).run with
    | none => pure out
    | some (tag, value) => do
      let offset ← addUsize offset (2 * wordWidth bitness)
      if tag = 0 then pure out
      else dynamicLoop be bitness buf steps offset (out ++ [(tag, value)])

def ptDynamic : Nat := 0x2

def segmentEntries (elf : Elf) (out : List (Nat × Nat)) (phdr : Phdr) : Run (List (Nat × Nat)) :=
  if phdr.pType ≠ ptDynamic then pure out
  else dynamicLoop elf.bigEndian elf.bitness phdr.buf (phdr.buf.length + 1) 0 out

/-- The value of the first entry with a tag. -/
def entryValue (entries : List (Nat × Nat)) (tag : Nat) : Option Nat :=
  (entries.find? fun entry => entry.1 == tag).map (·.2)

/-- The first section that covers an address; a section that wraps around ends the search. -/
def coveringSection (address : Nat) : List Shdr → Option Shdr
  | [] => none
  | shdr :: shdrs =>
    if shdr.addr ≠ 0 ∧ shdr.addr ≤ address then
      match checkedAdd shdr.addr shdr.buf.length with
      | none => none
      | some stop => if address < stop then some shdr else coveringSection address shdrs
    else coveringSection address shdrs

namespace Elf

variable (elf : Elf)

def dynamicEntries : Run (List (Nat × Nat)) := do
  let phdrs ← elf.programHeaders
  let out ← foldRun (segmentEntries elf) [] phdrs
  grown out.length
  pure out

def strtab : Reader (List UInt8) := do
  let entries ← ofRun elf.dynamicEntries
  let strtabAddr ← ofOption (entryValue entries 0x5)
  let strtabSize ← ofOption (entryValue entries 0xa)
  let shdrs ← ofRun elf.sectionHeaders
  let shdr ← ofOption (coveringSection strtabAddr shdrs)
  let rel ← ofRun (subUsize strtabAddr shdr.addr)
  let stop ← ofOption (checkedAdd rel strtabSize)
  let bytes ← ofOption (get shdr.buf rel stop)
  ofRun (request bytes.length)
  pure bytes

def dtNeeded : Nat := 0x1

def needed : Run (List (List UInt8)) := do
  match ← elf.strtab.run with
  | none => pure []
  | some strtab => do
    let entries ← elf.dynamicEntries
    let names ← collect (fun entry : Nat × Nat => readCstr strtab entry.2)
      (entries.filter fun entry => entry.1 == dtNeeded)
    grown names.length
    pure names

def shtSymtab : Nat := 0x2

/-- The first symbol table and its string table. -/
def symtab : Reader (Shdr × Shdr) := do
  let shdrs ← ofRun elf.sectionHeaders
  let shdr ← ofOption (shdrs.find? fun shdr => shdr.shType == shtSymtab)
  let strtab ← elf.parseSectionHeader (linkIndex shdr)
  pure (shdr, strtab)

/-! ## Reads at virtual addresses -/

/-- The segment an address is read from: the first that declares to hold it. -/
def holds (rva : Nat) (phdr : Phdr) : Bool :=
  match checkedAdd phdr.vaddr phdr.memsz with
  | none => false
  | some stop => decide (phdr.vaddr ≤ rva) && decide (rva < stop)

/-- `size` bytes at a virtual address, from the zero-filled image of its segment. -/
def readData (rva size : Nat) : Reader (List UInt8) := do
  let phdrs ← ofRun elf.programHeaders
  let phdr ← ofOption (phdrs.find? (holds rva))
  ofRun (requestImage phdr)
  let pad := phdr.memsz - phdr.buf.length
  let image := phdr.buf ++ List.replicate pad 0
  let offset ← ofRun (subUsize rva phdr.vaddr)
  let stop ← ofOption (checkedAdd offset size)
  let bytes ← ofOption (get image offset stop)
  ofRun (request bytes.length)
  pure bytes

def readGoSlice (rva : Nat) : Reader (List UInt8) := do
  let width := wordWidth elf.bitness
  let struct ← elf.readData rva (2 * width)
  let addr ← ofOption (getUint width struct 0 elf.bigEndian)
  let length ← ofOption (getUint width struct width elf.bigEndian)
  elf.readData addr length

end Elf

end CapaX.ElfOs
