import CapaX.Codec.Words
import CapaX.Control.Logged

/-
  Reading the fields of an ELF file (`elf_os.rs`). Sizes and offsets are naturals with the 64-bit
  checks where the source has them: `checked_*` operations return `none`, unchecked ones fault. A
  run logs every vector it builds: a request for a given number of bytes at once faults when it
  exceeds `isize::MAX`; a vector that grows by pushing and a set log their length.
-/

namespace CapaX.ElfOs

open Codec Control Logged

def isizeMax : Nat := 2 ^ 63 - 1

/-- A byte slice: never longer than `isize::MAX`. -/
structure ByteBuf where
  bytes : List UInt8
  bounded : bytes.length ≤ isizeMax

/-- A program header with the contents of its segment. -/
structure Phdr where
  pType : Nat
  vaddr : Nat
  memsz : Nat
  flags : Nat
  buf : List UInt8

/-- A section header with the contents of its section. -/
structure Shdr where
  nameIdx : Nat
  shType : Nat
  addr : Nat
  link : Nat
  buf : List UInt8

/-! ## Faults and requests -/

inductive Fault where
  | indexOutOfBounds | arithmeticOverflow | capacityOverflow | diverges
  deriving DecidableEq, Repr

/-- How a collection gets its length: it is asked for at once, a vector is pushed to, or a set is
    inserted into. -/
inductive Growth where
  | reserved | pushed | inserted
  deriving DecidableEq, Repr

/-- A collection of the given length. The memory image of a segment is reserved, as long as the
    segment declares. -/
structure Request where
  length : Nat
  growth : Growth
  segment : Option Phdr
  covers : ∀ phdr, segment = some phdr → growth = .reserved ∧ phdr.memsz ≤ length

abbrev Run := Logged Fault Request

abbrev Reader := Partial Fault Request

def ask (r : Request) : Run Unit :=
  ⟨[r], if r.length ≤ isizeMax then .ok () else .error .capacityOverflow⟩

/-- A vector of bytes, copied from what is there. -/
def request (length : Nat) : Run Unit := ask ⟨length, .reserved, none, fun _ h => nomatch h⟩

/-- The zero-filled memory image of a segment. -/
def requestImage (phdr : Phdr) : Run Unit :=
  ask ⟨max phdr.buf.length phdr.memsz, .reserved, some phdr, fun phdr' h => by
    rw [← Option.some.inj h]
    exact ⟨rfl, Nat.le_max_right _ _⟩⟩

/-- A vector that grew to a length by pushing. -/
def grown (length : Nat) : Run Unit := ⟨[⟨length, .pushed, none, fun _ h => nomatch h⟩], .ok ()⟩

/-- A set that grew to a length by insertions. -/
def inserted (length : Nat) : Run Unit :=
  ⟨[⟨length, .inserted, none, fun _ h => nomatch h⟩], .ok ()⟩

/-! ## Arithmetic and slices -/

def addUsize (a b : Nat) : Run Nat :=
  if a + b < 2 ^ 64 then pure (a + b) else throwFault .arithmeticOverflow

def subUsize (a b : Nat) : Run Nat :=
  if b ≤ a then pure (a - b) else throwFault .arithmeticOverflow

def checkedAdd (a b : Nat) : Option Nat := if a + b < 2 ^ 64 then some (a + b) else none

def checkedMul (a b : Nat) : Option Nat := if a * b < 2 ^ 64 then some (a * b) else none

theorem checkedAdd_eq_some {a b c : Nat} (h : checkedAdd a b = some c) : c = a + b := by
  unfold checkedAdd at h
  split at h
  · exact (Option.some.inj h).symm
  · cases h

theorem checkedMul_eq_some {a b c : Nat} (h : checkedMul a b = some c) : c = a * b := by
  unfold checkedMul at h
  split at h
  · exact (Option.some.inj h).symm
  · cases h

/-- `buf.get(start..stop)`. -/
def get (buf : List UInt8) (start stop : Nat) : Option (List UInt8) :=
  if start ≤ stop ∧ stop ≤ buf.length then some ((buf.drop start).take (stop - start)) else none

theorem get_part {buf bytes : List UInt8} {start stop : Nat} (h : get buf start stop = some bytes) :
    start ≤ stop ∧ stop ≤ buf.length ∧ bytes = (buf.drop start).take (stop - start) := by
  unfold get at h
  split at h
  · next hrange => exact ⟨hrange.1, hrange.2, (Option.some.inj h).symm⟩
  · cases h

theorem get_eq_some {buf bytes : List UInt8} {start stop : Nat}
    (h : get buf start stop = some bytes) :
    start ≤ stop ∧ stop ≤ buf.length ∧ bytes.length = stop - start := by
  obtain ⟨hle, hstop, rfl⟩ := get_part h
  refine ⟨hle, hstop, ?_⟩
  rw [List.length_take, List.length_drop]
  omega

/-- Bytes that stand at an offset are read from there. -/
theorem get_standing {buf bytes : List UInt8} {off : Nat} (h : bytes <+: buf.drop off)
    (hoff : off ≤ buf.length) : get buf off (off + bytes.length) = some bytes := by
  have hlength := Words.length_standing h
  rw [get, if_pos ⟨by omega, by omega⟩, Nat.add_sub_cancel_left]
  obtain ⟨rest, hrest⟩ := h
  rw [← hrest, List.take_left]

/-- `&buf[start..stop]`. -/
def slice (buf : List UInt8) (start stop : Nat) : Run (List UInt8) :=
  match get buf start stop with
  | some bytes => pure bytes
  | none => throwFault .indexOutOfBounds

/-- `buf[index]`. -/
def index (buf : List UInt8) (i : Nat) : Run UInt8 :=
  match buf[i]? with
  | some byte => pure byte
  | none => throwFault .indexOutOfBounds

def fromBytes (be : Bool) (bytes : List UInt8) : Nat :=
  if be then bytes.foldl (fun value byte => value * 256 + byte.toNat) 0
  else bytes.foldr (fun byte value => byte.toNat + 256 * value) 0

/-- An unsigned number of `width` bytes. -/
def getUint (width : Nat) (buf : List UInt8) (off : Nat) (be : Bool) : Option Nat :=
  (checkedAdd off width).bind fun stop => (get buf off stop).map (fromBytes be)

def getU16 : List UInt8 → Nat → Bool → Option Nat := getUint 2

def getU32 : List UInt8 → Nat → Bool → Option Nat := getUint 4

def getU64 : List UInt8 → Nat → Bool → Option Nat := getUint 8

/-- A number at an offset computed with an unchecked addition. -/
def uintAt (width : Nat) (buf : List UInt8) (off field : Nat) (be : Bool) : Reader Nat := do
  let place ← ofRun (addUsize off field)
  ofOption (getUint width buf place be)

/-- The number of bytes of a word: four on ELF32, eight on ELF64. -/
def wordWidth (bitness : Nat) : Nat := if bitness = 32 then 4 else 8

/-! ## Text -/

/-- Text is its UTF-8 bytes. -/
def utf8 (bytes : List UInt8) : Option (List UInt8) :=
  if (ByteArray.mk bytes.toArray).validateUTF8 then some bytes else none

theorem utf8_eq_some {bytes text : List UInt8} (h : utf8 bytes = some text) : text = bytes := by
  unfold utf8 at h
  split at h
  · exact (Option.some.inj h).symm
  · cases h

/-- The bytes of an ASCII literal. -/
def ascii (text : String) : List UInt8 := text.toList.map fun c => c.toNat.toUInt8

/-- The part before the first NUL, as text. -/
def cstr (bytes : List UInt8) : Reader (List UInt8) := do
  let stop := (bytes.findIdx? fun byte => byte == 0).getD bytes.length
  let text ← ofRun (slice bytes 0 stop)
  let name ← ofOption (utf8 text)
  ofRun (request name.length)
  pure name

def readCstr (buf : List UInt8) (offset : Nat) : Reader (List UInt8) := do
  let rest ← ofOption (get buf offset buf.length)
  cstr rest

/-- Where a needle first occurs. -/
def findSubslice (haystack needle : List UInt8) : Option Nat :=
  if needle.isEmpty || decide (haystack.length < needle.length) then none
  else (List.range (haystack.length - needle.length + 1)).find? fun i =>
    needle.isPrefixOf (haystack.drop i)

def contains (haystack needle : List UInt8) : Bool := (findSubslice haystack needle).isSome

end CapaX.ElfOs
