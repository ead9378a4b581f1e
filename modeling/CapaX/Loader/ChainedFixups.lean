import CapaX.Codec.Words
import CapaX.Control.Budget
import CapaX.Loader.Mapping

/-
  The chained fixups of a Mach-O image (`image.rs`, `parse_macho_chained_fixups`). The payload has a
  table of segments, each of these a table of pages, and a page the start of a chain of words in the
  mapped image; a word binds an import or rebases a pointer, and says how far the next word is. A
  run logs each page start and each word that it looks at.
-/

namespace CapaX.Loader.ChainedFixups

open Codec Words Control Control.Logged

/-! ## The reader -/

/-- What a run looks at: a page of the segment at an offset, or a word of a chain. -/
inductive Visit
  | page (segStart page : Nat)
  | word (va : UInt64)

/-- How a run ends early: with an error, or in an index out of bounds. -/
inductive Halt
  | failed (error : ImageError)
  | outOfBounds

abbrev Fixups := Logged Halt Visit

def fail {α : Type} (message : String) : Fixups α := throwFault (.failed (.macho message))

/-- `ok_or`. -/
def orElse {α : Type} (o : Option α) (message : String) : Fixups α :=
  match o with
  | some a => pure a
  | none => fail message

/-- `Result::ok`. -/
def attempt {α : Type} (m : Fixups α) : Fixups (Option α) :=
  match m.outcome with
  | .ok a => ⟨m.log, .ok (some a)⟩
  | .error (.failed _) => ⟨m.log, .ok none⟩
  | .error .outOfBounds => ⟨m.log, .error .outOfBounds⟩

def saturatingAdd (a b : Nat) : Nat := min (a + b) Recovery.usizeMax

def saturatingMul (a b : Nat) : Nat := min (a * b) Recovery.usizeMax

def maxMachoFixupSegments : Nat := 256

def maxMachoChainSteps : Nat := 1000000

/-- The readers of all widths: the range is checked, and as long as the number is wide. -/
def readMacho (width : Nat) (data : List UInt8) (offset : Nat) (context : String) : Fixups Nat :=
  orElse (((ElfOs.get data offset (saturatingAdd offset width)).filter fun raw =>
    raw.length = width).map ofLe) s!"truncated chained-fixups {context}"

def readMachoU16 : List UInt8 → Nat → String → Fixups Nat := readMacho 2

def readMachoU32 : List UInt8 → Nat → String → Fixups Nat := readMacho 4

def readMachoU64 : List UInt8 → Nat → String → Fixups Nat := readMacho 8

/-- `&bytes[..stop]` -/
def sliceTo (bytes : List UInt8) (stop : Nat) : Fixups (List UInt8) :=
  match ElfOs.get bytes 0 stop with
  | some part => pure part
  | none => throwFault .outOfBounds

def machoChainedLibName (libs : List String) (libOrdinal : Nat) : String :=
  if libOrdinal ≤ 0xF0 then (libs[libOrdinal]?).getD s!"ordinal_{libOrdinal}"
  else if libOrdinal = 0xFF then "main_executable"
  else if libOrdinal = 0xFE then "flat_lookup"
  else if libOrdinal = 0xFD then "weak_lookup"
  else s!"special_{hex libOrdinal}"

def notTerminated : String := "chained import name is not a terminated UTF-8 string"

/-- The library and the symbol of an import; text is its UTF-8 bytes. -/
def resolveMachoChainedImport (chainData : List UInt8) (libs : List String)
    (importsOffset symbolsOffset ordinal : Nat) : Fixups (String × List UInt8) := do
  let entryOffset ← orElse
    ((ElfOs.checkedMul ordinal 4).bind fun offset => ElfOs.checkedAdd importsOffset offset)
    "chained import ordinal overflows"
  let raw ← readMachoU32 chainData entryOffset "import entry"
  let libOrdinal := raw % 2 ^ 8
  let nameOffset := raw / 2 ^ 9
  let nameStart ← orElse (ElfOs.checkedAdd symbolsOffset nameOffset)
    "chained import name offset overflows"
  let tail ← orElse (ElfOs.get chainData nameStart chainData.length) notTerminated
  let stop ← orElse (tail.findIdx? (· == 0)) notTerminated
  let text ← sliceTo tail stop
  let name ← orElse (ElfOs.utf8 text) notTerminated
  pure (machoChainedLibName libs libOrdinal, name)

/-- A bound address with its import. -/
structure Bind where
  address : UInt64
  dylib : String
  symbol : List UInt8
  deriving DecidableEq

/-- The offsets of the header that the walk needs. -/
structure Offsets where
  starts : Nat
  imports : Nat
  symbols : Nat

section

variable (m : Mapped) (chainData : List UInt8) (libs : List String) (offsets : Offsets)

/-- The import that a word binds, if the word is a bind and its import can be resolved. -/
def bindOf (va : UInt64) (value : Nat) : Fixups (List Bind) :=
  if value / 2 ^ 63 % 2 = 1 then do
    let found ← attempt (resolveMachoChainedImport chainData libs offsets.imports offsets.symbols
      (value % 2 ^ 24))
    pure (found.toList.map fun entry => ⟨va, entry.1, entry.2⟩)
  else pure []

/-- Follow a chain. The steps count down from the limit. -/
def walkChain : Nat → UInt64 → List Bind → Fixups (Nat × List Bind)
  | 0, _, _ => fail "chained-fixups walk exceeded the step limit"
  | steps + 1, va, binds => do
    emit (.word va)
    match (m.bytesAt va 8).filter fun raw => raw.length = 8 with
    | none => pure (steps, binds)
    | some raw => do
      let value := ofLe raw
      let next := value / 2 ^ 51 % 2 ^ 12
      let found ← bindOf chainData libs offsets va value
      if next = 0 then pure (steps, binds ++ found)
      else walkChain steps (va + UInt64.ofNat next * 4) (binds ++ found)

/-- Where the chain of a page starts, whatever wraps around. -/
def pageVa (segmentOffset pageSize page pageStart : Nat) : UInt64 :=
  m.imageBase + UInt64.ofNat segmentOffset + UInt64.ofNat page * UInt64.ofNat pageSize +
    UInt64.ofNat pageStart

def walkPage (segStart segmentOffset pageSize : Nat) (state : Nat × List Bind)
    (page : Nat) : Fixups (Nat × List Bind) := do
  emit (.page segStart page)
  let pageStart ← readMachoU16 chainData
    (saturatingAdd (saturatingAdd segStart 22) (saturatingMul page 2))
    "starts_in_segment.page_start"
  if pageStart = 0xFFFF then pure state
  else
    walkChain m chainData libs offsets state.1
      (pageVa m segmentOffset pageSize page pageStart) state.2

def walkSegment (state : Nat × List Bind) (segIndex : Nat) : Fixups (Nat × List Bind) := do
  let segInfoOffset ← readMachoU32 chainData
    (saturatingAdd (saturatingAdd offsets.starts 4) (saturatingMul segIndex 4))
    "starts_in_image.seg_info_offset"
  if segInfoOffset = 0 then pure state
  else do
    let segStart := saturatingAdd offsets.starts segInfoOffset
    let pageSize ← readMachoU16 chainData (saturatingAdd segStart 4) "starts_in_segment.page_size"
    let pointerFormat ← readMachoU16 chainData (saturatingAdd segStart 6)
      "starts_in_segment.pointer_format"
    let segmentOffset ← readMachoU64 chainData (saturatingAdd segStart 8)
      "starts_in_segment.segment_offset"
    let pageCount ← readMachoU16 chainData (saturatingAdd segStart 20)
      "starts_in_segment.page_count"
    if pageSize = 0 ∨ pointerFormat ∉ [2, 6] then pure state
    else
      foldRun (walkPage m chainData libs offsets segStart segmentOffset pageSize) state
        (List.range pageCount)

end

/-- What is read of a payload. -/
def parsePayload (m : Mapped) (chainData : List UInt8) (libs : List String) :
    Fixups (List Bind) := do
  let startsOffset ← readMachoU32 chainData 4 "header.starts_offset"
  let importsOffset ← readMachoU32 chainData 8 "header.imports_offset"
  let symbolsOffset ← readMachoU32 chainData 12 "header.symbols_offset"
  let importsFormat ← readMachoU32 chainData 20 "header.imports_format"
  if importsFormat ≠ 1 then pure []
  else do
    let segCount ← readMachoU32 chainData startsOffset "starts_in_image.seg_count"
    if maxMachoFixupSegments < segCount then
      fail s!"chained-fixups seg_count {segCount} exceeds limit {maxMachoFixupSegments}"
    else do
      let state ← foldRun
        (walkSegment m chainData libs ⟨startsOffset, importsOffset, symbolsOffset⟩)
        (maxMachoChainSteps, []) (List.range segCount)
      pure state.2

/-- `slice.get(base..end)`. -/
def payload (slice : ElfOs.ByteBuf) (dataoff datasize : UInt32) : Option (List UInt8) :=
  (ElfOs.checkedAdd dataoff.toNat datasize.toNat).bind fun stop =>
    ElfOs.get slice.bytes dataoff.toNat stop

def parseMachoChainedFixups (m : Mapped) (slice : ElfOs.ByteBuf) (libs : List String)
    (dataoff datasize : UInt32) : Fixups (List Bind) := do
  let _ ← orElse (ElfOs.checkedAdd dataoff.toNat datasize.toNat)
    "chained-fixups payload size overflows"
  let chainData ← orElse (payload slice dataoff datasize)
    "LC_DYLD_CHAINED_FIXUPS payload is not file-backed"
  parsePayload m chainData libs

/-! ## What a run costs -/

/-- The number that stands at an offset. -/
def wordAt (width : Nat) (data : List UInt8) (offset : Nat) : Option Nat :=
  (ElfOs.get data offset (offset + width)).map ofLe

/-- The number of pages that a segment of the table declares. -/
def pagesOf (data : List UInt8) (startsOffset segIndex : Nat) : Nat :=
  match wordAt 4 data (startsOffset + 4 + segIndex * 4) with
  | none | some 0 => 0
  | some segInfoOffset => (wordAt 2 data (startsOffset + segInfoOffset + 20)).getD 0

/-- The number of pages that all segments of a payload declare. -/
def declaredPages (data : List UInt8) : Nat :=
  match wordAt 4 data 4 with
  | none => 0
  | some startsOffset =>
    ((List.range ((wordAt 4 data startsOffset).getD 0)).map (pagesOf data startsOffset)).sum

/-- No index is out of bounds. -/
def InBounds (halt : Halt) : Prop := halt ≠ .outOfBounds

theorem inBounds_failed (error : ImageError) : InBounds (.failed error) := fun h => nomatch h

section

variable {α : Type} {budget : Nat} {data : List UInt8} {libs : List String} {offsets : Offsets}
  {m : Mapped}

theorem within_orElse (o : Option α) (message : String) :
    Within InBounds budget (orElse o message) fun _ => budget := by
  cases o with
  | none => exact within_throwFault (inBounds_failed _)
  | some a => exact within_pure (Nat.le_refl _)

theorem orElse_ok {o : Option α} {message : String} {a : α}
    (h : (orElse o message).outcome = .ok a) : o = some a := by
  cases o with
  | none => cases h
  | some b => exact congrArg some (Except.ok.inj h)

theorem within_readMacho (width : Nat) (offset : Nat) (context : String) :
    Within InBounds budget (readMacho width data offset context) fun _ => budget :=
  within_orElse _ _

/-- What can be read is not as far as the offsets saturate. -/
theorem readMacho_ok (hdata : data.length ≤ ElfOs.isizeMax) {width offset n : Nat}
    {context : String} (h : (readMacho width data offset context).outcome = .ok n) :
    offset < Recovery.usizeMax ∧ wordAt width data offset = some n := by
  obtain ⟨raw, hfilter, hvalue⟩ := Option.map_eq_some_iff.mp (orElse_ok h)
  obtain ⟨hraw, -⟩ := Option.filter_eq_some_iff.mp hfilter
  obtain ⟨hstart, hstop, -⟩ := ElfOs.get_part hraw
  have hmax : ElfOs.isizeMax < Recovery.usizeMax := by decide
  have hoffset : saturatingAdd offset width = offset + width := by
    unfold saturatingAdd at hstop ⊢
    omega
  rw [hoffset] at hraw
  refine ⟨by omega, ?_⟩
  rw [wordAt, hraw, Option.map_some, hvalue]

theorem saturatingAdd_eq {a b : Nat} (h : saturatingAdd a b < Recovery.usizeMax) :
    saturatingAdd a b = a + b := by
  unfold saturatingAdd at h ⊢
  omega

theorem saturatingMul_eq {a b : Nat} (h : saturatingMul a b < Recovery.usizeMax) :
    saturatingMul a b = a * b := by
  unfold saturatingMul at h ⊢
  omega

theorem within_sliceTo {bytes : List UInt8} {stop : Nat} (h : stop ≤ bytes.length) :
    Within InBounds budget (sliceTo bytes stop) fun _ => budget := by
  have hget : ElfOs.get bytes 0 stop = some ((bytes.drop 0).take (stop - 0)) :=
    if_pos ⟨Nat.zero_le _, h⟩
  rw [sliceTo, hget]
  exact within_pure (Nat.le_refl _)

/-- The name ends inside the bytes that it is looked for in. -/
theorem within_resolve (importsOffset symbolsOffset ordinal : Nat) :
    Within InBounds budget
      (resolveMachoChainedImport data libs importsOffset symbolsOffset ordinal)
      fun _ => budget := by
  refine (within_orElse _ _).bind fun entryOffset _ => ?_
  refine (within_readMacho _ _ _).bind fun raw _ => ?_
  refine (within_orElse _ _).bind fun nameStart _ => ?_
  refine (within_orElse _ _).bind fun tail _ => ?_
  refine (within_orElse _ _).bind fun stop hstop => ?_
  obtain ⟨hlt, -⟩ := List.findIdx?_eq_some_iff_getElem.mp (orElse_ok hstop)
  refine (within_sliceTo (Nat.le_of_lt hlt)).bind fun text _ => ?_
  refine (within_orElse _ _).bind fun name _ => ?_
  exact within_pure (Nat.le_refl _)

/-- A run without a cost can be tried. -/
theorem within_attempt {r : Fixups α} (h : Within InBounds 0 r fun _ => 0) :
    Within InBounds budget (attempt r) fun _ => budget := by
  obtain ⟨hvalue, hfault⟩ := h
  unfold attempt
  split
  · next a ha =>
    refine ⟨fun _ _ => ?_, fun _ he => (nomatch he)⟩
    have hcost := hvalue a ha
    dsimp only at hcost ⊢
    omega
  · next error he =>
    refine ⟨fun _ _ => ?_, fun _ he => (nomatch he)⟩
    have hcost := (hfault _ he).2
    dsimp only
    omega
  · next he => exact absurd rfl (hfault _ he).1

theorem within_bindOf (va : UInt64) (value : Nat) :
    Within InBounds budget (bindOf data libs offsets va value) fun _ => budget := by
  unfold bindOf
  split
  · refine (within_attempt (within_resolve _ _ _)).bind fun found _ => ?_
    exact within_pure (Nat.le_refl _)
  · exact within_pure (Nat.le_refl _)

/-- A chain costs a step for each word. -/
theorem within_walkChain (steps : Nat) (va : UInt64) (binds : List Bind) :
    Within InBounds steps (walkChain m data libs offsets steps va binds) fun state => state.1 := by
  induction steps generalizing va binds with
  | zero => exact within_throwFault (inBounds_failed _)
  | succ steps ih =>
    refine within_emit.bind fun _ _ => ?_
    split
    · exact within_pure (Nat.le_refl _)
    · refine (within_bindOf _ _).bind fun found _ => ?_
      split
      · exact within_pure (Nat.le_refl _)
      · exact ih _ _

theorem within_walkPage (segStart segmentOffset pageSize : Nat) (state : Nat × List Bind)
    (page : Nat) :
    Within InBounds (state.1 + 1)
      (walkPage m data libs offsets segStart segmentOffset pageSize state page)
      fun state => state.1 := by
  refine within_emit.bind fun _ _ => ?_
  refine (within_readMacho _ _ _).bind fun pageStart _ => ?_
  split
  · exact within_pure (Nat.le_refl _)
  · exact within_walkChain _ _ _

theorem within_walkSegment (hdata : data.length ≤ ElfOs.isizeMax) (state : Nat × List Bind)
    (segIndex : Nat) :
    Within InBounds (state.1 + pagesOf data offsets.starts segIndex)
      (walkSegment m data libs offsets state segIndex) fun state => state.1 := by
  refine (within_readMacho _ _ _).bind fun segInfoOffset hinfo => ?_
  obtain ⟨hfield, hword⟩ := readMacho_ok hdata hinfo
  have hinner : saturatingAdd offsets.starts 4 < Recovery.usizeMax ∧
      saturatingMul segIndex 4 < Recovery.usizeMax := by
    rw [saturatingAdd_eq hfield] at hfield
    omega
  rw [saturatingAdd_eq hfield, saturatingAdd_eq hinner.1, saturatingMul_eq hinner.2] at hword
  split
  · exact within_pure (Nat.le_add_right _ _)
  · next hpresent =>
    refine (within_readMacho _ _ _).bind fun pageSize _ => ?_
    refine (within_readMacho _ _ _).bind fun pointerFormat _ => ?_
    refine (within_readMacho _ _ _).bind fun segmentOffset _ => ?_
    refine (within_readMacho _ _ _).bind fun pageCount hcount => ?_
    obtain ⟨hfield, hpages⟩ := readMacho_ok hdata hcount
    have hstart : saturatingAdd offsets.starts segInfoOffset < Recovery.usizeMax := by
      rw [saturatingAdd_eq hfield] at hfield
      omega
    rw [saturatingAdd_eq hfield, saturatingAdd_eq hstart] at hpages
    have hdeclared : pagesOf data offsets.starts segIndex = pageCount := by
      unfold pagesOf
      rw [hword]
      obtain _ | segInfoOffset := segInfoOffset
      · exact absurd rfl hpresent
      · show (wordAt 2 data (offsets.starts + (segInfoOffset + 1) + 20)).getD 0 = pageCount
        rw [hpages, Option.getD_some]
    rw [hdeclared]
    split
    · exact within_pure (Nat.le_add_right _ _)
    · have hsum : ((List.range pageCount).map fun _ => 1).sum = pageCount := by simp
      have hloop : Within InBounds (state.1 + ((List.range pageCount).map fun _ => 1).sum)
          (foldRun (walkPage m data libs offsets (saturatingAdd offsets.starts segInfoOffset)
            segmentOffset pageSize) state (List.range pageCount)) fun state => state.1 :=
        within_foldRun (fun state page _ => within_walkPage _ _ _ state page) state
      rwa [hsum] at hloop

theorem within_parsePayload (hdata : data.length ≤ ElfOs.isizeMax) :
    Within InBounds (maxMachoChainSteps + declaredPages data) (parsePayload m data libs)
      fun _ => 0 := by
  refine (within_readMacho _ _ _).bind fun startsOffset hstarts => ?_
  refine (within_readMacho _ _ _).bind fun importsOffset _ => ?_
  refine (within_readMacho _ _ _).bind fun symbolsOffset _ => ?_
  refine (within_readMacho _ _ _).bind fun importsFormat _ => ?_
  split
  · exact within_pure (Nat.zero_le _)
  · refine (within_readMacho _ _ _).bind fun segCount hcount => ?_
    have hdeclared : declaredPages data =
        ((List.range segCount).map (pagesOf data startsOffset)).sum := by
      rw [declaredPages, (readMacho_ok hdata hstarts).2]
      dsimp only
      rw [(readMacho_ok hdata hcount).2, Option.getD_some]
    split
    · exact within_throwFault (inBounds_failed _)
    · rw [hdeclared]
      refine (within_foldRun (fun state segIndex _ => within_walkSegment hdata state segIndex)
        (maxMachoChainSteps, [])).bind fun state _ => ?_
      exact within_pure (Nat.zero_le _)

theorem length_payload {slice : ElfOs.ByteBuf} {dataoff datasize : UInt32}
    (h : payload slice dataoff datasize = some data) : data.length ≤ ElfOs.isizeMax := by
  obtain ⟨stop, -, hget⟩ := Option.bind_eq_some_iff.mp h
  obtain ⟨hstart, hstop, rfl⟩ := ElfOs.get_part hget
  have hlength := List.length_take_le (stop - dataoff.toNat) (slice.bytes.drop dataoff.toNat)
  have hbounded := slice.bounded
  omega

/-- Every run ends without an index out of bounds, and the words and page starts it looks at are
    together at most the step limit plus the pages that the payload declares. -/
theorem within_parse (m : Mapped) (libs : List String) (slice : ElfOs.ByteBuf)
    (dataoff datasize : UInt32) :
    Within InBounds
      (maxMachoChainSteps + ((payload slice dataoff datasize).map declaredPages).getD 0)
      (parseMachoChainedFixups m slice libs dataoff datasize) fun _ => 0 := by
  refine (within_orElse _ _).bind fun _ _ => ?_
  refine (within_orElse _ _).bind fun chainData hpayload => ?_
  have hdata := orElse_ok hpayload
  rw [hdata, Option.map_some, Option.getD_some]
  exact within_parsePayload (length_payload hdata)

end

end CapaX.Loader.ChainedFixups
