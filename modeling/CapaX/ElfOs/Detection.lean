import CapaX.ElfOs.Headers

/-
  `detect_elf_os` and `dynamic_import_symbol_names` (`elf_os.rs`). The guesses are tried in the
  order of the source, each on its own: one that cannot read what it needs has no value, and the
  next is tried.
-/

namespace CapaX.ElfOs

open Control Logged

inductive Os where
  | hpux | netbsd | linux | hurd | open86 | solaris | aix | irix | freebsd | tru64 | modesto
  | openbsd | openvms | nsk | aros | fenixos | cloud | syllable | nacl | android | dragonflybsd
  | illumos | zos | unix
  deriving DecidableEq, Repr

def Os.name : Os → String
  | .hpux => "hpux"
  | .netbsd => "netbsd"
  | .linux => "linux"
  | .hurd => "hurd"
  | .open86 => "86open"
  | .solaris => "solaris"
  | .aix => "aix"
  | .irix => "irix"
  | .freebsd => "freebsd"
  | .tru64 => "tru64"
  | .modesto => "modesto"
  | .openbsd => "openbsd"
  | .openvms => "openvms"
  | .nsk => "nsk"
  | .aros => "aros"
  | .fenixos => "fenixos"
  | .cloud => "cloud"
  | .syllable => "syllable"
  | .nacl => "nacl"
  | .android => "android"
  | .dragonflybsd => "dragonfly BSD"
  | .illumos => "illumos"
  | .zos => "z/os"
  | .unix => "unix"

def gnuAbiTag : Nat → Option Os
  | 0 => some .linux
  | 1 => some .hurd
  | 2 => some .solaris
  | 3 => some .freebsd
  | 4 => some .netbsd
  | 5 => some .syllable
  | 6 => some .nacl
  | _ => none

def osabiToOs : Nat → Option Os
  | 1 => some .hpux
  | 2 => some .netbsd
  | 3 => some .linux
  | 4 => some .hurd
  | 5 => some .open86
  | 6 => some .solaris
  | 7 => some .aix
  | 8 => some .irix
  | 9 => some .freebsd
  | 10 => some .tru64
  | 11 => some .modesto
  | 12 => some .openbsd
  | 13 => some .openvms
  | 14 => some .nsk
  | 15 => some .aros
  | 16 => some .fenixos
  | 17 => some .cloud
  | _ => none

inductive Machine where
  | i386 | amd64 | arm | aarch64
  deriving DecidableEq, Repr

def eMachineName : Nat → Option Machine
  | 3 => some .i386
  | 62 => some .amd64
  | 40 => some .arm
  | 183 => some .aarch64
  | _ => none

/-! ## Notes -/

def align (v alignment : Nat) : Run Nat :=
  let remainder := v % alignment
  if remainder = 0 then pure v else addUsize v (alignment - remainder)

structure NoteHeader where
  type : Nat
  name : List UInt8
  descOffset : Nat
  descsz : Nat

def parseNote (buf : List UInt8) (be : Bool) : Reader NoteHeader := do
  let namesz ← ofOption (getU32 buf 0x0 be)
  let descsz ← ofOption (getU32 buf 0x4 be)
  let type ← ofOption (getU32 buf 0x8 be)
  let aligned ← ofRun (align namesz 0x4)
  let descOffset ← ofOption (checkedAdd 0xc aligned)
  let nameEnd ← ofOption (checkedAdd 0xc namesz)
  let nameBytes ← ofOption (get buf 0xc nameEnd)
  let name ← cstr nameBytes
  pure ⟨type, name, descOffset, descsz⟩

def noteAbiTag (note : NoteHeader) (buf : List UInt8) (be : Bool) : Option Os :=
  if note.name ≠ ascii "GNU" ∨ note.descsz < 16 then none
  else do
    let descEnd ← checkedAdd note.descOffset note.descsz
    let desc ← get buf note.descOffset descEnd
    let abiTag ← getU32 desc 0x0 be
    gnuAbiTag abiTag

/-- The system of a note: a vendor of the table, or the ABI tag of a GNU note. -/
def noteOs (vendors : List (String × Os)) (note : NoteHeader) (buf : List UInt8) (be : Bool) :
    Option Os :=
  match vendors.find? fun vendor => note.name == ascii vendor.1 with
  | some vendor => some vendor.2
  | none => if note.name = ascii "GNU" then noteAbiTag note buf be else none

def phVendors : List (String × Os) :=
  [("Linux", .linux), ("OpenBSD", .openbsd), ("NetBSD", .netbsd), ("FreeBSD", .freebsd),
    ("Android", .android)]

def shVendors : List (String × Os) :=
  [("Linux", .linux), ("OpenBSD", .openbsd), ("NetBSD", .netbsd), ("FreeBSD", .freebsd)]

def ptNote : Nat := 0x4

def shtNote : Nat := 0x7

/-! ## Guesses -/

section

variable (elf : Elf)

def eiOsabi : Option Os := elf.buf.bytes[7]?.bind fun byte => osabiToOs byte.toNat

def eMachine : Option Machine :=
  (getU16 elf.buf.bytes 0x12 elf.bigEndian).bind eMachineName

def guessOsFromOsabi : Reader Os := ofOption (eiOsabi elf)

def guessOsFromPhNotes : Reader Os := do
  let phdrs ← ofRun elf.programHeaders
  firstSome (fun phdr : Phdr =>
    if phdr.pType ≠ ptNote then ofOption none
    else do
      let note ← parseNote phdr.buf elf.bigEndian
      if note.type ≠ 1 then ofOption none
      else ofOption (noteOs phVendors note phdr.buf elf.bigEndian)) phdrs

/-- Unlike a program header's note, a section's note may have any type. -/
def guessOsFromShNotes : Reader Os := do
  let shdrs ← ofRun elf.sectionHeaders
  firstSome (fun shdr : Shdr =>
    if shdr.shType ≠ shtNote then ofOption none
    else do
      let note ← parseNote shdr.buf elf.bigEndian
      ofOption (noteOs shVendors note shdr.buf elf.bigEndian)) shdrs

def shtProgbits : Nat := 0x1

/-- What a compiler's comment says of the system. -/
def commentOs (comment : List UInt8) : Option Os :=
  if !contains comment (ascii "GCC:") then none
  else if ["Debian", "Ubuntu", "Red Hat", "Alpine"].any fun name => contains comment (ascii name)
  then some .linux
  else if contains comment (ascii "Android") then some .android
  else none

def guessOsFromIdentDirective : Reader Os := do
  let shdrs ← ofRun elf.sectionHeaders
  firstSome (fun shdr : Shdr =>
    if shdr.shType ≠ shtProgbits then ofOption none
    else do
      let name ← shdr.getName elf
      if name ≠ ascii ".comment" then ofOption none
      else ofOption ((utf8 shdr.buf).bind commentOs)) shdrs

def guessOsFromLinker : Reader Os := do
  let linker ← elf.linker
  ofOption (if contains linker (ascii "ld-linux") then some .linux else none)

def guessOsFromAbiVersionsNeeded : Reader Os := do
  let versions ← ofRun elf.versionsNeeded
  if !versions.any fun entry => (ascii "GLIBC").isPrefixOf entry.2 then ofOption none
  else if eMachine elf ≠ some .i386 then pure .linux
  else do
    let linker ← ofRun elf.linker.run
    match linker with
    | some linker =>
      if contains linker (ascii "ld-linux") then pure .linux
      else if contains linker (ascii "/ld.so") then pure .hurd
      else pure .linux
    | none => pure .linux

/-- What a library needed at run time says of the system. -/
def neededOs (needed : List UInt8) : Option Os :=
  if (ascii "libmachuser.so").isPrefixOf needed || (ascii "libhurduser.so").isPrefixOf needed then
    some .hurd
  else if (ascii "libandroid.so").isPrefixOf needed || (ascii "liblog.so").isPrefixOf needed then
    some .android
  else none

def guessOsFromNeededDependencies : Reader Os := do
  let needed ← ofRun elf.needed
  ofOption (needed.findSome? neededOs)

/-- The name offsets of a symbol table. -/
def symtabLoop (be : Bool) (entsize : Nat) (buf : List UInt8) :
    Nat → Nat → List Nat → Run (List Nat)
  | 0, _, _ => throwFault .diverges
  | steps + 1, off, out => do
    let stop ← addUsize off entsize
    if stop ≤ buf.length then
      let out := match getU32 buf off be with
        | some nameOffset => out ++ [nameOffset]
        | none => out
      let off ← addUsize off entsize
      symtabLoop be entsize buf steps off out
    else pure out

def parseSymtab (buf : List UInt8) (bitness : Nat) (be : Bool) : Run (List Nat) := do
  let entsize := if bitness = 32 then 16 else 24
  let out ← symtabLoop be entsize buf (buf.length + 1) 0 []
  grown out.length
  pure out

def guessOsFromSymtab : Reader Os := do
  let tables ← elf.symtab
  let syms ← ofRun (parseSymtab tables.1.buf elf.bitness elf.bigEndian)
  firstSome (fun nameOffset : Nat => do
    let name ← tables.2.nameAt nameOffset
    ofOption (if contains name (ascii "linux") || contains name (ascii "/linux/") then some .linux
      else none)) syms

/-! ## Go -/

def isGoName (name : List UInt8) : Bool :=
  name == ascii ".note.go.buildid" || name == ascii ".go.buildinfo"

def isGoBinary : Reader Unit := do
  let shdrs ← ofRun elf.sectionHeaders
  firstSome (fun shdr : Shdr => do
    let name ← shdr.getName elf
    ofOption (if isGoName name then some () else none)) shdrs

def ptLoad : Nat := 0x1

/-- `PF_W` without `PF_X`. -/
def writableData (phdr : Phdr) : Bool := phdr.pType == ptLoad && phdr.flags % 4 == 2

def getGoBuildinfoData : Reader (List UInt8) := do
  let shdrs ← ofRun elf.sectionHeaders
  let named ← ofRun (firstSome (fun shdr : Shdr => do
    let name ← shdr.getName elf
    ofOption (if name = ascii ".go.buildinfo" then some shdr.buf else none)) shdrs).run
  match named with
  | some buf => do
    ofRun (request buf.length)
    pure buf
  | none => do
    let phdrs ← ofRun elf.programHeaders
    let phdr ← ofOption (phdrs.find? writableData)
    ofRun (request phdr.buf.length)
    pure phdr.buf

/-- `\xff Go buildinf:` -/
def buildinfoMagic : List UInt8 := 0xff :: ascii " Go buildinf:"

def goosToOs : List (String × Option Os) :=
  [("aix", some .aix), ("android", some .android), ("dragonfly", some .dragonflybsd),
    ("freebsd", some .freebsd), ("hurd", some .hurd), ("illumos", some .illumos),
    ("linux", some .linux), ("netbsd", some .netbsd), ("openbsd", some .openbsd),
    ("solaris", some .solaris), ("zos", some .zos), ("windows", none), ("plan9", none),
    ("ios", none), ("darwin", none), ("nacl", none), ("js", none)]

/-- The system the build settings name; a name of the table may stand for no system. -/
def goosOf (settings : List UInt8) : Reader Os := do
  let os ← firstSome (fun entry : String × Option Os => do
    let needle := ascii "GOOS=" ++ ascii entry.1
    ofRun (request needle.length)
    ofOption (if contains settings needle then some entry.2 else none)) goosToOs
  ofOption os

/-- The module information without its sentinels, which a line break before the last gives away. -/
def trimModinfo (modinfo : List UInt8) : Run (List UInt8) :=
  if modinfo.length < 0x11 then pure modinfo
  else do
    let i ← subUsize modinfo.length 0x11
    let byte ← index modinfo i
    let stop := modinfo.length - 0x10
    if byte = 0x0a ∧ 0x10 ≤ modinfo.length ∧ 0x10 ≤ stop then do
      let inner ← slice modinfo 0x10 stop
      request inner.length
      pure inner
    else pure modinfo

def guessOsFromGoBuildinfo : Reader Os := do
  let buf ← getGoBuildinfoData elf
  let i ← ofOption (findSubslice buf buildinfoMagic)
  let start ← ofRun (addUsize i buildinfoMagic.length)
  let stop ← ofRun (addUsize start 2)
  let hdr ← ofOption (get buf start stop)
  let psize ← ofRun (index hdr 0)
  let flags ← ofRun (index hdr 1)
  if psize ≠ 4 ∧ psize ≠ 8 then ofOption none
  else
    let isBigEndian := flags.toNat % 2 == 1
    let hasInlineStrings := flags.toNat / 2 % 2 == 1
    if hasInlineStrings then goosOf buf
    else do
      let width := psize.toNat
      let buildVersionAddress ← uintAt width buf i 0x10 isBigEndian
      let modinfoAddress ← uintAt width buf i (0x10 + width) isBigEndian
      -- the version is read and dropped
      let _ ← ofRun (elf.readGoSlice buildVersionAddress).run
      let modinfo ← elf.readGoSlice modinfoAddress
      if modinfo.isEmpty then ofOption none
      else do
        let settings ← ofRun (trimModinfo modinfo)
        goosOf settings

/-- The first name of the table that the file name after a needle starts with. -/
def sourceOs (needle suffix : List UInt8) (names : List (String × Os)) (phdr : Phdr) :
    Reader Os := do
  let i ← ofOption (findSubslice phdr.buf needle)
  let start ← ofRun (addUsize i needle.length)
  let bound ← ofRun (addUsize start 32)
  let rest ← ofRun (slice phdr.buf start (min bound phdr.buf.length))
  let stop := (findSubslice rest suffix).getD rest.length
  let bytes ← ofRun (slice rest 0 stop)
  let filename ← ofOption (utf8 bytes)
  ofOption ((names.find? fun entry => (ascii entry.1).isPrefixOf filename).map (·.2))

def osFilenameToOs : List (String × Os) :=
  [("aix", .aix), ("android", .android), ("dragonfly", .dragonflybsd), ("freebsd", .freebsd),
    ("freebsd2", .freebsd), ("freebsd_", .freebsd), ("illumos", .illumos), ("linux", .linux),
    ("netbsd", .netbsd), ("only_solaris", .solaris), ("openbsd", .openbsd),
    ("solaris", .solaris), ("unix_nonlinux", .unix)]

def rt0FilenameToOs : List (String × Os) :=
  [("aix", .aix), ("android", .android), ("dragonfly", .dragonflybsd), ("freebsd", .freebsd),
    ("illumos", .illumos), ("linux", .linux), ("netbsd", .netbsd), ("openbsd", .openbsd),
    ("solaris", .solaris)]

def guessOsFromGoSource : Reader Os := do
  isGoBinary elf
  let phdrs ← ofRun elf.programHeaders
  let byOs ← ofRun (firstSome
    (sourceOs (ascii "/src/runtime/os_") (ascii ".go") osFilenameToOs) phdrs).run
  match byOs with
  | some os => pure os
  | none => do
    let phdrs ← ofRun elf.programHeaders
    firstSome (sourceOs (ascii "/src/runtime/rt0_") (ascii ".s") rt0FilenameToOs) phdrs

def vdsoPairs : List (String × String) :=
  [("__vdso_gettimeofday", "LINUX_2.6"), ("__vdso_clock_gettime", "LINUX_2.6"),
    ("__kernel_rt_sigreturn", "LINUX_2.6.39"), ("__kernel_gettimeofday", "LINUX_2.6.39"),
    ("__kernel_clock_gettime", "LINUX_2.6.39"), ("__kernel_clock_getres", "LINUX_2.6.39"),
    ("__kernel_sigtramp", "LINUX_2.5"), ("__kernel_syscall_via_break", "LINUX_2.5"),
    ("__kernel_syscall_via_epc", "LINUX_2.5"), ("__kernel_clock_getres", "LINUX_2.6.15"),
    ("__kernel_clock_gettime", "LINUX_2.6.15"), ("__kernel_clock_gettime64", "LINUX_5.11"),
    ("__kernel_datapage_offset", "LINUX_2.6.15"), ("__kernel_get_syscall_map", "LINUX_2.6.15"),
    ("__kernel_get_tbfreq", "LINUX_2.6.15"), ("__kernel_getcpu", "LINUX_2.6.15"),
    ("__kernel_gettimeofday", "LINUX_2.6.15"), ("__kernel_sigtramp_rt32", "LINUX_2.6.15"),
    ("__kernel_sigtramp32", "LINUX_2.6.15"), ("__kernel_sync_dicache", "LINUX_2.6.15"),
    ("__kernel_sync_dicache_p5", "LINUX_2.6.15"), ("__kernel_sigtramp_rt64", "LINUX_2.6.15"),
    ("__vdso_rt_sigreturn", "LINUX_4.15"), ("__vdso_getcpu", "LINUX_4.15"),
    ("__vdso_flush_icache", "LINUX_4.15"), ("__kernel_sigreturn", "LINUX_2.6.29"),
    ("__kernel_vsyscall", "LINUX_2.6"), ("__vdso_time", "LINUX_2.6")]

def guessOsFromVdsoStrings : Reader Os := do
  let phdrs ← ofRun elf.programHeaders
  ofOption (if phdrs.any fun phdr => vdsoPairs.any fun pair =>
      contains phdr.buf (ascii pair.1) && contains phdr.buf (ascii pair.2)
    then some .linux else none)

/-! ## Detection -/

/-- The guesses in their order. -/
def guesses : List (Elf → Reader Os) :=
  [guessOsFromOsabi, guessOsFromPhNotes, guessOsFromShNotes, guessOsFromLinker,
    guessOsFromAbiVersionsNeeded, guessOsFromNeededDependencies, guessOsFromSymtab,
    guessOsFromGoBuildinfo, guessOsFromGoSource, guessOsFromIdentDirective,
    guessOsFromVdsoStrings]

/-- `to_string` of a literal. -/
def literal (text : String) : Run String := do
  request text.utf8ByteSize
  pure text

end

def detectElfOs (buf : ByteBuf) : Run String :=
  match Elf.parse buf with
  | none => literal "unknown"
  | some elf => do
    let os ← (firstSome (fun guess => guess elf) guesses).run
    literal ((os.map Os.name).getD "unknown")

/-! ## Imports of the dynamic symbol table -/

structure FullSym where
  stName : Nat
  stValue : Nat
  stShndx : Nat
  stInfo : Nat

def parseFullSym (buf : List UInt8) (off bitness : Nat) (be : Bool) : Reader FullSym :=
  if bitness = 32 then do
    let stName ← ofOption (getU32 buf off be)
    let stValue ← uintAt 4 buf off 4 be
    let stInfo ← uintAt 1 buf off 12 be
    let stShndx ← uintAt 2 buf off 14 be
    pure ⟨stName, stValue, stShndx, stInfo⟩
  else do
    let stName ← ofOption (getU32 buf off be)
    let stInfo ← uintAt 1 buf off 4 be
    let stShndx ← uintAt 2 buf off 6 be
    let stValue ← uintAt 8 buf off 8 be
    pure ⟨stName, stValue, stShndx, stInfo⟩

/-- The largest of the buckets from `i` on; a bucket that cannot be read ends the count. -/
def bucketMax (be : Bool) (buckets : List UInt8) : Nat → Nat → Option Nat → Option (Option Nat)
  | 0, _, best => some best
  | count + 1, i, best => do
    let v ← getU32 buckets (i * 4) be
    bucketMax be buckets count (i + 1) (some (best.elim v fun m => max m v))

def u32Max : Nat := 2 ^ 32 - 1

/-- Follow a chain to the word with the terminator bit. -/
def chainEnd (elf : Elf) (chainPos symoffset : Nat) : Nat → Nat → Reader Nat
  | 0, _ => ofOption none
  | steps + 1, maxIdx => do
    let distance ← ofRun (subUsize maxIdx symoffset)
    let wordVaddr ← ofOption (checkedAdd chainPos (distance * 4))
    let word ← elf.readData wordVaddr 4
    let curHash ← ofOption (getU32 word 0 elf.bigEndian)
    if curHash % 2 ≠ 0 then pure (maxIdx + 1)
    else if maxIdx < u32Max then chainEnd elf chainPos symoffset steps (maxIdx + 1)
    else ofOption none

def maxChainSteps : Nat := 10000000

def gnuHashNumSymbols (elf : Elf) (vaddr : Nat) : Reader Nat := do
  let be := elf.bigEndian
  let header ← elf.readData vaddr 16
  let nbuckets ← ofOption (getU32 header 0 be)
  let symoffset ← ofOption (getU32 header 4 be)
  let bloomSize ← ofOption (getU32 header 8 be)
  let bloom ← ofOption (checkedAdd vaddr 16)
  let bloomLen ← ofOption (checkedMul bloomSize (wordWidth elf.bitness))
  let bucketsVaddr ← ofOption (checkedAdd bloom bloomLen)
  let bucketsLen ← ofOption (checkedMul nbuckets 4)
  let buckets ← elf.readData bucketsVaddr bucketsLen
  let best ← ofOption (bucketMax be buckets nbuckets 0 none)
  let maxIdx ← ofOption best
  if maxIdx < symoffset then pure symoffset
  else do
    let chainPos ← ofOption (checkedAdd bucketsVaddr (nbuckets * 4))
    chainEnd elf chainPos symoffset maxChainSteps maxIdx

def elfHashNumSymbols (elf : Elf) (vaddr : Nat) : Reader Nat := do
  let header ← elf.readData vaddr 8
  ofOption (getU32 header 4 elf.bigEndian)

/-- The least value of an entry above an address. -/
def nearestAbove (symtabVaddr : Nat) (entries : List (Nat × Nat)) : Option Nat :=
  entries.foldl (fun nearest entry =>
    if symtabVaddr < entry.2 ∧ nearest.all (fun n => decide (entry.2 < n)) then some entry.2
    else nearest) none

/-- The end of the last loaded segment that holds an address; `none` when a segment wraps around
    before. -/
def segmentEnd (symtabVaddr : Nat) : List Phdr → Option Nat → Option (Option Nat)
  | [], found => some found
  | phdr :: phdrs, found =>
    if phdr.pType ≠ ptLoad then segmentEnd symtabVaddr phdrs found
    else do
      let stop ← checkedAdd phdr.vaddr phdr.buf.length
      segmentEnd symtabVaddr phdrs
        (if phdr.vaddr ≤ symtabVaddr ∧ symtabVaddr ≤ stop then some stop else found)

def nearestPtrNumSymbols (elf : Elf) (entries : List (Nat × Nat)) (symtabVaddr entsize : Nat) :
    Reader Nat :=
  match nearestAbove symtabVaddr entries with
  | some n => do
    let distance ← ofRun (subUsize n symtabVaddr)
    pure (distance / entsize)
  | none => do
    let phdrs ← ofRun elf.programHeaders
    let found ← ofOption (segmentEnd symtabVaddr phdrs none)
    let stop ← ofOption found
    let distance ← ofRun (subUsize stop symtabVaddr)
    pure (distance / entsize)

/-- The name of an undefined function, object or indirect function. -/
def importedName (elf : Elf) (symtab strtab : List UInt8) (off : Nat) : Reader (List UInt8) := do
  let sym ← parseFullSym symtab off elf.bitness elf.bigEndian
  let symType := sym.stInfo % 16
  if sym.stName = 0 ∨ symType ∉ [2, 1, 10] ∨ sym.stValue ≠ 0 ∨ sym.stShndx ≠ 0 then ofOption none
  else do
    let name ← readCstr strtab sym.stName
    if name.isEmpty then ofOption none else pure name

/-- The names by symbol index, of `count` symbols from `i` on. -/
def symbolNames (elf : Elf) (symtab strtab : List UInt8) (entsize : Nat) :
    Nat → Nat → List (Nat × List UInt8) → Run (List (Nat × List UInt8))
  | 0, _, out => pure out
  | count + 1, i, out =>
    match checkedMul i entsize with
    | none => pure out
    | some off => do
      let name ← (importedName elf symtab strtab off).run
      symbolNames elf symtab strtab entsize count (i + 1)
        (out ++ name.toList.map fun name => (i, name))

def dtSymtab : Nat := 0x6

def dtHash : Nat := 0x4

def dtGnuHash : Nat := 0x6ffffef5

/-- The number of symbols: from the GNU hash table, else the hash table, else a guess. -/
def numSymbols (elf : Elf) (entries : List (Nat × Nat)) (symtabVaddr entsize : Nat) :
    Reader Nat :=
  match entryValue entries dtGnuHash with
  | some gnuHashVaddr => gnuHashNumSymbols elf gnuHashVaddr
  | none =>
    match entryValue entries dtHash with
    | some hashVaddr => elfHashNumSymbols elf hashVaddr
    | none => nearestPtrNumSymbols elf entries symtabVaddr entsize

def dynamicNames (elf : Elf) : Reader (List (Nat × List UInt8)) := do
  let entries ← ofRun elf.dynamicEntries
  let symtabVaddr ← ofOption (entryValue entries dtSymtab)
  let entsize := if elf.bitness = 32 then 16 else 24
  let numSyms ← numSymbols elf entries symtabVaddr entsize
  let symtabLen ← ofOption (checkedMul numSyms entsize)
  let symtabBytes ← elf.readData symtabVaddr symtabLen
  let strtabBytes ← elf.strtab
  let out ← ofRun (symbolNames elf symtabBytes strtabBytes entsize numSyms 0 [])
  ofRun (grown out.length)
  pure out

/-- The names by symbol index; none when something on the way cannot be read. -/
def dynamicImportSymbolNames (buf : ByteBuf) : Run (List (Nat × List UInt8)) :=
  match Elf.parse buf with
  | none => pure []
  | some elf => do
    let out ← (dynamicNames elf).run
    pure (out.getD [])

end CapaX.ElfOs
