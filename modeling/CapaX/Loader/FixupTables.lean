import CapaX.Loader.Bounds
import CapaX.Loader.ChainedFixups

/-
  What the reader of chained fixups makes of well-formed payloads. The tables are written down as
  `mach-o/fixup-chains.h` lays them out and stand in the payload; the words of a chain stand in the
  mapped image, each in one region. The reader goes through the segments, their pages and the
  chains of these in order, and has the imports of the bind words (`parsePayload_eq`).
-/

namespace CapaX.Loader.ChainedFixups

open Codec Words Control Control.Logged

/-! ## Tables -/

/-- What a word of a chain points to. -/
inductive Target
  | bind (ordinal addend reserved : Nat)
  | rebase (target high8 reserved : Nat)

/-- A word of a chain, with the distance to the next one. -/
structure Link where
  target : Target
  next : Nat

namespace Link

def value (link : Link) : Nat :=
  match link.target with
  | .bind ordinal addend reserved =>
    ordinal + 2 ^ 24 * addend + 2 ^ 32 * reserved + 2 ^ 51 * link.next + 2 ^ 63
  | .rebase target high8 reserved =>
    target + 2 ^ 36 * high8 + 2 ^ 44 * reserved + 2 ^ 51 * link.next

/-- The fields fit their bits. -/
def Fits (link : Link) : Prop :=
  link.next < 2 ^ 12 ∧
    match link.target with
    | .bind ordinal addend reserved => ordinal < 2 ^ 24 ∧ addend < 2 ^ 8 ∧ reserved < 2 ^ 19
    | .rebase target high8 reserved => target < 2 ^ 36 ∧ high8 < 2 ^ 8 ∧ reserved < 2 ^ 7

/-- The ordinal that a word binds. -/
def ordinal (link : Link) : Option Nat :=
  match link.target with
  | .bind ordinal _ _ => some ordinal
  | .rebase _ _ _ => none

end Link

/-- The bytes stand at an address in one region, the first that contains it. -/
def Stands (m : Mapped) (va : UInt64) (bytes : List UInt8) : Prop :=
  ∃ i mapped region, FirstAt m.regions.sections va i mapped ∧
    m.regions.mappedBytes[i]? = some region ∧
    bytes <+: region.drop (va.toNat - mapped.address.toNat)

/-- The words of a chain stand in the image, each as far behind the one before as that says. -/
def ChainStands (m : Mapped) : UInt64 → List Link → Prop
  | _, [] => False
  | va, [link] => link.Fits ∧ Stands m va (toLe 8 link.value) ∧ link.next = 0
  | va, link :: link' :: links =>
    link.Fits ∧ Stands m va (toLe 8 link.value) ∧ link.next ≠ 0 ∧
      ChainStands m (va + UInt64.ofNat link.next * 4) (link' :: links)

/-- The words of a chain that bind an import, with their addresses. -/
def chainBinds : UInt64 → List Link → List (UInt64 × Nat)
  | _, [] => []
  | va, link :: links =>
    (link.ordinal.toList.map fun ordinal => (va, ordinal)) ++
      chainBinds (va + UInt64.ofNat link.next * 4) links

/-- A segment with its pages; a page without fixups has no start. -/
structure Segment where
  size : Nat
  pageSize : Nat
  pointerFormat : Nat
  segmentOffset : Nat
  maxValidPointer : Nat
  pages : List (Option (Nat × List Link))

def encodePage (page : Option (Nat × List Link)) : List UInt8 :=
  toLe 2 (page.elim 0xFFFF fun chain => chain.1)

namespace Segment

/-- `dyld_chained_starts_in_segment` -/
def encode (s : Segment) : List UInt8 :=
  toLe 4 s.size ++ (toLe 2 s.pageSize ++ (toLe 2 s.pointerFormat ++ (toLe 8 s.segmentOffset ++
    (toLe 4 s.maxValidPointer ++ (toLe 2 s.pages.length ++ s.pages.flatMap encodePage)))))

structure Stands (s : Segment) (m : Mapped) (data : List UInt8) (segStart : Nat) : Prop where
  encoded : s.encode <+: data.drop segStart
  pageSize_pos : 0 < s.pageSize
  pageSize_fits : s.pageSize < 2 ^ 16
  format : s.pointerFormat = 2 ∨ s.pointerFormat = 6
  segmentOffset_fits : s.segmentOffset < 2 ^ 64
  pages_fit : s.pages.length < 2 ^ 16
  starts : ∀ (page start : Nat) (links : List Link), s.pages[page]? = some (some (start, links)) →
    start < 0xFFFF
  chains : ∀ (page start : Nat) (links : List Link), s.pages[page]? = some (some (start, links)) →
    ChainStands m (pageVa m s.segmentOffset s.pageSize page start) links

/-- The bind words of a page, and of the segment. -/
def pageBinds (s : Segment) (m : Mapped) (entry : Option (Nat × List Link) × Nat) :
    List (UInt64 × Nat) :=
  entry.1.elim [] fun chain =>
    chainBinds (pageVa m s.segmentOffset s.pageSize entry.2 chain.1) chain.2

def binds (s : Segment) (m : Mapped) : List (UInt64 × Nat) := s.pages.zipIdx.flatMap (s.pageBinds m)

end Segment

/-- The number of words of a page, and of a segment. -/
def pageLength (page : Option (Nat × List Link)) : Nat := page.elim 0 fun chain => chain.2.length

def Segment.length (s : Segment) : Nat := (s.pages.map pageLength).sum

/-- A payload: the header, and the segments with their offsets from the table of them. -/
structure Payload where
  version : Nat
  importsCount : Nat
  symbolsFormat : Nat
  offsets : Offsets
  segments : List (Option (Nat × Segment))

namespace Payload

/-- `dyld_chained_fixups_header`, with imports of the format 1. -/
def header (p : Payload) : List UInt8 :=
  toLe 4 p.version ++ (toLe 4 p.offsets.starts ++ (toLe 4 p.offsets.imports ++
    (toLe 4 p.offsets.symbols ++ (toLe 4 p.importsCount ++ (toLe 4 1 ++
      toLe 4 p.symbolsFormat)))))

def encodeInfo (segment : Option (Nat × Segment)) : List UInt8 :=
  toLe 4 (segment.elim 0 fun entry => entry.1)

/-- `dyld_chained_starts_in_image` -/
def starts (p : Payload) : List UInt8 :=
  toLe 4 p.segments.length ++ p.segments.flatMap encodeInfo

structure Stands (p : Payload) (m : Mapped) (data : List UInt8) : Prop where
  header_stands : p.header <+: data.drop 0
  starts_fits : p.offsets.starts < 2 ^ 32
  imports_fits : p.offsets.imports < 2 ^ 32
  symbols_fits : p.offsets.symbols < 2 ^ 32
  starts_stands : p.starts <+: data.drop p.offsets.starts
  count_fits : p.segments.length < 2 ^ 32
  infos : ∀ (i info : Nat) (s : Segment), p.segments[i]? = some (some (info, s)) →
    0 < info ∧ info < 2 ^ 32
  segments_stand : ∀ (i info : Nat) (s : Segment), p.segments[i]? = some (some (info, s)) →
    s.Stands m data (p.offsets.starts + info)

/-- The bind words of all segments, in their order. -/
def binds (p : Payload) (m : Mapped) : List (UInt64 × Nat) :=
  p.segments.flatMap fun segment => segment.elim [] fun entry => entry.2.binds m

def segmentLength (segment : Option (Nat × Segment)) : Nat :=
  segment.elim 0 fun entry => entry.2.length

/-- The number of words of all chains. -/
def length (p : Payload) : Nat := (p.segments.map segmentLength).sum

end Payload

/-- The import of an ordinal: its entry names a library and the offset of a symbol that ends with a
    NUL. -/
def WellFormed (data : List UInt8) (libs : List String) (offsets : Offsets) (ordinal : Nat)
    (dylib : String) (symbol : List UInt8) : Prop :=
  ∃ libOrdinal weakImport nameOffset, libOrdinal < 2 ^ 8 ∧ weakImport < 2 ∧ nameOffset < 2 ^ 23 ∧
    toLe 4 (libOrdinal + 2 ^ 8 * weakImport + 2 ^ 9 * nameOffset) <+:
      data.drop (offsets.imports + ordinal * 4) ∧
    (symbol ++ [0]) <+: data.drop (offsets.symbols + nameOffset) ∧ 0 ∉ symbol ∧
    ElfOs.utf8 symbol = some symbol ∧ dylib = machoChainedLibName libs libOrdinal

/-- The import that the reader finds for an ordinal. -/
def importOf (data : List UInt8) (libs : List String) (offsets : Offsets) (ordinal : Nat) :
    Option (String × List UInt8) :=
  (resolveMachoChainedImport data libs offsets.imports offsets.symbols ordinal).outcome.toOption

/-- The bind words whose imports can be resolved. -/
def resolved (data : List UInt8) (libs : List String) (offsets : Offsets)
    (words : List (UInt64 × Nat)) : List Bind :=
  words.filterMap fun word => (importOf data libs offsets word.2).map fun entry =>
    ⟨word.1, entry.1, entry.2⟩

/-! ## Reading what stands -/

section

variable {data : List UInt8} {libs : List String} {offsets : Offsets} {m : Mapped}

theorem saturatingAdd_small {a b : Nat} (h : a + b ≤ ElfOs.isizeMax) :
    saturatingAdd a b = a + b := by
  have hmax : ElfOs.isizeMax < Recovery.usizeMax := by decide
  unfold saturatingAdd
  omega

theorem saturatingMul_small {a b : Nat} (h : a * b ≤ ElfOs.isizeMax) :
    saturatingMul a b = a * b := by
  have hmax : ElfOs.isizeMax < Recovery.usizeMax := by decide
  unfold saturatingMul
  omega

theorem orElse_some {α : Type} {o : Option α} {a : α} (h : o = some a) (message : String) :
    (orElse o message).outcome = .ok a := by
  rw [h]
  rfl

theorem readMacho_standing (hdata : data.length ≤ ElfOs.isizeMax) {width offset n : Nat}
    (h : toLe width n <+: data.drop offset) (hwidth : 0 < width) (hsmall : width ≤ 8)
    (hn : n < 256 ^ width) (context : String) :
    (readMacho width data offset context).outcome = .ok n := by
  have hlength := length_standing h
  rw [length_toLe] at hlength
  have hmax : ElfOs.isizeMax < Recovery.usizeMax := by decide
  have hget := ElfOs.get_standing h (by omega)
  have hstop : saturatingAdd offset width = offset + width := by
    unfold saturatingAdd
    omega
  apply orElse_some
  rw [length_toLe] at hget
  rw [hstop, hget, Option.filter_some, if_pos (decide_eq_true (length_toLe width n)),
    Option.map_some, ofLe_toLe hn]

theorem Link.value_spec {link : Link} (h : link.Fits) :
    link.value < 256 ^ 8 ∧ link.value / 2 ^ 51 % 2 ^ 12 = link.next ∧
      ((link.ordinal = none ∧ link.value / 2 ^ 63 % 2 = 0) ∨
        (link.ordinal = some (link.value % 2 ^ 24) ∧ link.value / 2 ^ 63 % 2 = 1)) := by
  obtain ⟨target, next⟩ := link
  obtain ⟨hnext, hfields⟩ := h
  unfold value ordinal
  obtain ⟨ordinal, addend, reserved⟩ | ⟨target, high8, reserved⟩ := target
  · dsimp only at hnext hfields ⊢
    refine ⟨by omega, by omega, Or.inr ⟨congrArg some ?_, by omega⟩⟩
    omega
  · dsimp only at hnext hfields ⊢
    exact ⟨by omega, by omega, Or.inl ⟨rfl, by omega⟩⟩

theorem bytesAt_standing {va : UInt64} {bytes : List UInt8} (h : Stands m va bytes)
    (hpos : 0 < bytes.length) : m.bytesAt va bytes.length = some bytes := by
  obtain ⟨i, mapped, region, hfirst, hregion, hstands⟩ := h
  have hlength := length_standing hstands
  have hle : va.toNat - mapped.address.toNat ≤ region.length := by omega
  have hmin : min bytes.length (region.length - (va.toNat - mapped.address.toNat)) =
      bytes.length := by omega
  have hbytes : m.bytesAt va bytes.length = if va.toNat - mapped.address.toNat ≤ region.length then
      some ((region.drop (va.toNat - mapped.address.toNat)).take
        (min bytes.length (region.length - (va.toNat - mapped.address.toNat)))) else none :=
    bytesAt_eq hfirst hregion
  rw [if_pos hle, hmin] at hbytes
  obtain ⟨rest, hrest⟩ := hstands
  rw [← hrest, List.take_left] at hbytes
  exact hbytes

/-! ## Imports -/

theorem attempt_outcome {α : Type} {r : Fixups α}
    (h : ∀ fault, r.outcome = .error fault → InBounds fault) :
    (attempt r).outcome = .ok r.outcome.toOption := by
  unfold attempt
  split
  · next a ha =>
    rw [ha]
    rfl
  · next error he =>
    rw [he]
    rfl
  · next he => exact absurd rfl (h _ he)

/-- What was read stands where it was read. -/
theorem standing_of_readMacho {width offset n : Nat} {context : String}
    (h : (readMacho width data offset context).outcome = .ok n) :
    toLe width n <+: data.drop offset ∧ n < 256 ^ width := by
  obtain ⟨raw, hfilter, rfl⟩ := Option.map_eq_some_iff.mp (orElse_ok h)
  obtain ⟨hraw, hlength⟩ := Option.filter_eq_some_iff.mp hfilter
  obtain rfl : raw.length = width := of_decide_eq_true hlength
  obtain ⟨-, -, hpart⟩ := ElfOs.get_part hraw
  refine ⟨?_, ofLe_lt raw⟩
  rw [toLe_ofLe, hpart]
  exact List.take_prefix _ _

/-- The first NUL is where the text before it ends. -/
theorem findIdx?_terminated {symbol tail : List UInt8} :
    (tail.findIdx? (· == 0) = some symbol.length ∧ tail.take symbol.length = symbol) ↔
      (symbol ++ [0]) <+: tail ∧ 0 ∉ symbol := by
  induction symbol generalizing tail with
  | nil =>
    obtain _ | ⟨byte, tail⟩ := tail
    · simp
    · by_cases hbyte : byte = 0
      · simp [hbyte, List.findIdx?_cons]
      · simp [hbyte, List.findIdx?_cons, Ne.symm hbyte]
  | cons a symbol ih =>
    obtain _ | ⟨byte, tail⟩ := tail
    · simp
    · have hrest := @ih tail
      have hfind : (byte :: tail).findIdx? (· == 0) =
          if byte = 0 then some 0 else (tail.findIdx? (· == 0)).map (· + 1) := by
        simp [List.findIdx?_cons]
      rw [hfind, List.length_cons, List.take_succ_cons, List.cons_append, List.cons_prefix_cons,
        List.cons.injEq, List.mem_cons]
      by_cases hbyte : byte = 0
      · rw [if_pos hbyte, hbyte]
        simp
        tauto
      · rw [if_neg hbyte]
        simp only [Option.map_eq_some_iff, Nat.add_right_cancel_iff, exists_eq_right]
        constructor
        · rintro ⟨hstop, rfl, htake⟩
          obtain ⟨hstands, hzero⟩ := hrest.mp ⟨hstop, htake⟩
          exact ⟨⟨rfl, hstands⟩, not_or.mpr ⟨Ne.symm hbyte, hzero⟩⟩
        · rintro ⟨⟨rfl, hstands⟩, hzero⟩
          obtain ⟨hstop, htake⟩ := hrest.mpr ⟨hstands, (not_or.mp hzero).2⟩
          exact ⟨hstop, rfl, htake⟩

theorem outcome_of_importOf {ordinal : Nat} {entry : String × List UInt8}
    (h : importOf data libs offsets ordinal = some entry) :
    (resolveMachoChainedImport data libs offsets.imports offsets.symbols ordinal).outcome =
      .ok entry := by
  unfold importOf at h
  cases hr : (resolveMachoChainedImport data libs offsets.imports offsets.symbols
    ordinal).outcome with
  | error fault =>
    rw [hr] at h
    cases h
  | ok found =>
    rw [hr] at h
    exact congrArg Except.ok (Option.some.inj h)

/-- What is cut off at the first NUL ends there. -/
theorem terminated_of_sliceTo {tail text : List UInt8} {stop : Nat} {message : String}
    (hstop : (orElse (tail.findIdx? (· == 0)) message).outcome = .ok stop)
    (htext : (sliceTo tail stop).outcome = .ok text) : (text ++ [0]) <+: tail ∧ 0 ∉ text := by
  have hget : ElfOs.get tail 0 stop = some text := by
    unfold sliceTo at htext
    split at htext
    · next part hpart => rw [hpart, Except.ok.inj htext]
    · cases htext
  obtain ⟨-, hle, htextEq⟩ := ElfOs.get_part hget
  rw [List.drop_zero, Nat.sub_zero] at htextEq
  have hlength : text.length = stop := by
    rw [htextEq, List.length_take]
    omega
  have hfind := orElse_ok hstop
  rw [← hlength] at hfind htextEq
  exact findIdx?_terminated.mp ⟨hfind, htextEq.symm⟩

theorem wellFormed_of_importOf {ordinal : Nat} {dylib : String} {symbol : List UInt8}
    (h : importOf data libs offsets ordinal = some (dylib, symbol)) :
    WellFormed data libs offsets ordinal dylib symbol := by
  obtain ⟨entryOffset, hentry, hout⟩ := outcome_bind.mp (outcome_of_importOf h)
  obtain ⟨raw, hraw, hout⟩ := outcome_bind.mp hout
  obtain ⟨nameStart, hname, hout⟩ := outcome_bind.mp hout
  obtain ⟨tail, htail, hout⟩ := outcome_bind.mp hout
  obtain ⟨stop, hstop, hout⟩ := outcome_bind.mp hout
  obtain ⟨text, htext, hout⟩ := outcome_bind.mp hout
  obtain ⟨name, hutf8, hout⟩ := outcome_bind.mp hout
  obtain ⟨rfl, rfl⟩ := Prod.mk.inj (Except.ok.inj hout)
  -- the entry
  obtain ⟨offset, hmul, hadd⟩ := Option.bind_eq_some_iff.mp (orElse_ok hentry)
  obtain rfl := ElfOs.checkedMul_eq_some hmul
  obtain rfl := ElfOs.checkedAdd_eq_some hadd
  obtain ⟨hstands, hfits⟩ := standing_of_readMacho hraw
  have hfields : raw % 2 ^ 8 + 2 ^ 8 * (raw / 2 ^ 8 % 2) + 2 ^ 9 * (raw / 2 ^ 9) = raw := by omega
  -- the name
  obtain rfl := ElfOs.checkedAdd_eq_some (orElse_ok hname)
  have htailEq : tail = data.drop (offsets.symbols + raw / 2 ^ 9) := by
    rw [(ElfOs.get_part (orElse_ok htail)).2.2, ← List.length_drop, List.take_length]
  obtain ⟨hterminated, hzero⟩ := terminated_of_sliceTo hstop htext
  have hnameEq := ElfOs.utf8_eq_some (orElse_ok hutf8)
  have hutf8Eq := orElse_ok hutf8
  rw [hnameEq] at hutf8Eq ⊢
  rw [htailEq] at hterminated
  refine ⟨raw % 2 ^ 8, raw / 2 ^ 8 % 2, raw / 2 ^ 9, by omega, by omega, by omega, ?_, hterminated,
    hzero, hutf8Eq, rfl⟩
  rw [hfields]
  exact hstands

theorem importOf_of_wellFormed (hdata : data.length ≤ ElfOs.isizeMax) {ordinal : Nat}
    {dylib : String} {symbol : List UInt8} (h : WellFormed data libs offsets ordinal dylib symbol) :
    importOf data libs offsets ordinal = some (dylib, symbol) := by
  obtain ⟨libOrdinal, weakImport, nameOffset, hlib, hweak, hoffset, hentry, hname, hzero, htext,
    rfl⟩ := h
  have hraw := readMacho_standing hdata hentry (by decide) (by decide) (by omega) "import entry"
  have hentryLength := length_standing hentry
  have hnameLength := length_standing hname
  rw [length_toLe] at hentryLength
  rw [List.length_append, List.length_singleton] at hnameLength
  have hmax : ElfOs.isizeMax < 2 ^ 63 := by decide
  have hmul : ElfOs.checkedMul ordinal 4 = some (ordinal * 4) := if_pos (by omega)
  have hadd : ElfOs.checkedAdd offsets.imports (ordinal * 4) =
      some (offsets.imports + ordinal * 4) := if_pos (by omega)
  have hlibOrdinal :
      (libOrdinal + 2 ^ 8 * weakImport + 2 ^ 9 * nameOffset) % 2 ^ 8 = libOrdinal := by omega
  have hnameOffset :
      (libOrdinal + 2 ^ 8 * weakImport + 2 ^ 9 * nameOffset) / 2 ^ 9 = nameOffset := by omega
  have hstart : ElfOs.checkedAdd offsets.symbols nameOffset = some (offsets.symbols + nameOffset) :=
    if_pos (by omega)
  have htail : ElfOs.get data (offsets.symbols + nameOffset) data.length =
      some (data.drop (offsets.symbols + nameOffset)) := by
    rw [ElfOs.get, if_pos ⟨by omega, Nat.le_refl _⟩, ← List.length_drop, List.take_length]
  obtain ⟨hfind, -⟩ := findIdx?_terminated.mpr ⟨hname, hzero⟩
  have hsymbol : symbol <+: (data.drop (offsets.symbols + nameOffset)).drop 0 :=
    (List.prefix_append symbol [0]).trans hname
  have hpart := ElfOs.get_standing hsymbol (Nat.zero_le _)
  rw [Nat.zero_add] at hpart
  have hslice : (sliceTo (data.drop (offsets.symbols + nameOffset)) symbol.length).outcome =
      .ok symbol := by
    rw [sliceTo, hpart]
    rfl
  have hresolve : (resolveMachoChainedImport data libs offsets.imports offsets.symbols
      ordinal).outcome = .ok (machoChainedLibName libs libOrdinal, symbol) := by
    refine outcome_bind.mpr ⟨_, orElse_some (by rw [hmul]; exact hadd) _, ?_⟩
    refine outcome_bind.mpr ⟨_, hraw, ?_⟩
    rw [hlibOrdinal, hnameOffset]
    refine outcome_bind.mpr ⟨_, orElse_some hstart _, ?_⟩
    refine outcome_bind.mpr ⟨_, orElse_some htail _, ?_⟩
    refine outcome_bind.mpr ⟨_, orElse_some hfind _, ?_⟩
    refine outcome_bind.mpr ⟨_, hslice, ?_⟩
    exact outcome_bind.mpr ⟨_, orElse_some htext _, rfl⟩
  rw [importOf, hresolve]
  rfl

/-- The reader finds the imports whose entries are well-formed. -/
theorem importOf_iff (hdata : data.length ≤ ElfOs.isizeMax) {ordinal : Nat} {dylib : String}
    {symbol : List UInt8} :
    importOf data libs offsets ordinal = some (dylib, symbol) ↔
      WellFormed data libs offsets ordinal dylib symbol :=
  ⟨wellFormed_of_importOf, importOf_of_wellFormed hdata⟩

/-! ## Chains -/

theorem attempt_resolve (ordinal : Nat) :
    (attempt (resolveMachoChainedImport data libs offsets.imports offsets.symbols
      ordinal)).outcome = .ok (importOf data libs offsets ordinal) := by
  have hwithin : Within InBounds 0 (resolveMachoChainedImport data libs offsets.imports
      offsets.symbols ordinal) fun _ => 0 := within_resolve _ _ _
  exact attempt_outcome fun fault h => (hwithin.2 fault h).1

theorem resolved_append (words words' : List (UInt64 × Nat)) :
    resolved data libs offsets (words ++ words') =
      resolved data libs offsets words ++ resolved data libs offsets words' :=
  List.filterMap_append

/-- A word gives the import that it binds, if its entry is well-formed. -/
theorem bindOf_value {link : Link} (h : link.Fits) (va : UInt64) :
    (bindOf data libs offsets va link.value).outcome =
      .ok (resolved data libs offsets (link.ordinal.toList.map fun ordinal => (va, ordinal))) := by
  obtain ⟨-, -, ⟨hordinal, hbit⟩ | ⟨hordinal, hbit⟩⟩ := Link.value_spec h
  · rw [bindOf, if_neg (by omega), hordinal]
    rfl
  · rw [bindOf, if_pos hbit, hordinal]
    refine outcome_bind.mpr ⟨_, attempt_resolve _, ?_⟩
    unfold resolved
    rw [Option.toList_some, List.map_cons, List.map_nil, List.filterMap_cons, List.filterMap_nil]
    cases importOf data libs offsets (link.value % 2 ^ 24) <;> rfl

theorem walkChain_stands {links : List Link} {va : UInt64} (h : ChainStands m va links)
    {steps : Nat} (hsteps : links.length ≤ steps) (binds : List Bind) :
    (walkChain m data libs offsets steps va binds).outcome =
      .ok (steps - links.length, binds ++ resolved data libs offsets (chainBinds va links)) := by
  induction links generalizing va steps binds with
  | nil => exact h.elim
  | cons link links ih =>
    obtain ⟨hfits, hstands⟩ : link.Fits ∧ Stands m va (toLe 8 link.value) := by
      obtain _ | ⟨link', links⟩ := links
      · exact ⟨h.1, h.2.1⟩
      · exact ⟨h.1, h.2.1⟩
    obtain _ | steps := steps
    · exact absurd hsteps (Nat.not_succ_le_zero _)
    obtain ⟨hvalue, hnext, -⟩ := Link.value_spec hfits
    have hraw := bytesAt_standing hstands (by rw [length_toLe]; decide)
    rw [length_toLe] at hraw
    have hbind : (bindOf data libs offsets va link.value).outcome = .ok (resolved data libs offsets
        (link.ordinal.toList.map fun ordinal => (va, ordinal))) := bindOf_value hfits va
    rw [walkChain]
    refine outcome_bind.mpr ⟨(), rfl, ?_⟩
    rw [hraw, Option.filter_some, if_pos (decide_eq_true (length_toLe 8 link.value))]
    dsimp only
    rw [ofLe_toLe hvalue, hnext]
    refine outcome_bind.mpr ⟨_, hbind, ?_⟩
    rw [chainBinds, resolved_append]
    obtain _ | ⟨link', links⟩ := links
    · have hnil : resolved data libs offsets (chainBinds (va + UInt64.ofNat link.next * 4) []) =
          [] := rfl
      rw [if_pos h.2.2, hnil, List.append_nil]
      rfl
    · have hsub : steps + 1 - (link :: link' :: links).length = steps - (link' :: links).length :=
        Nat.add_sub_add_right _ _ _
      rw [if_neg h.2.2.1, ih h.2.2.2 (Nat.le_of_succ_le_succ hsteps), List.append_assoc, hsub]

/-! ## Pages, segments and payloads -/

/-- A loop over the indices of a list, whose turns take what their elements cost of a budget, and
    add what they give. -/
theorem foldRun_range {β : Type} {f : Nat × List Bind → Nat → Fixups (Nat × List Bind)}
    {cost : β → Nat} (out : β × Nat → List Bind) {bs : List β}
    (h : ∀ i b state, bs[i]? = some b → cost b ≤ state.1 →
      (f state i).outcome = .ok (state.1 - cost b, state.2 ++ out (b, i)))
    (state : Nat × List Bind) (hcost : (bs.map cost).sum ≤ state.1) :
    (foldRun f state (List.range bs.length)).outcome =
      .ok (state.1 - (bs.map cost).sum, state.2 ++ bs.zipIdx.flatMap out) := by
  have hloop (k : Nat) (bs : List β) (state : Nat × List Bind)
      (h : ∀ i b state, bs[i]? = some b → cost b ≤ state.1 →
        (f state (k + i)).outcome = .ok (state.1 - cost b, state.2 ++ out (b, k + i)))
      (hcost : (bs.map cost).sum ≤ state.1) :
      (foldRun f state (List.range' k bs.length)).outcome =
        .ok (state.1 - (bs.map cost).sum, state.2 ++ (bs.zipIdx k).flatMap out) := by
    induction bs generalizing k state with
    | nil =>
      rw [List.zipIdx_nil, List.flatMap_nil, List.append_nil]
      rfl
    | cons b bs ih =>
      rw [List.map_cons, List.sum_cons] at hcost ⊢
      have hfirst := h 0 b state rfl (by omega)
      rw [Nat.add_zero] at hfirst
      rw [List.length_cons, List.range'_succ, List.zipIdx_cons, List.flatMap_cons]
      refine outcome_bind.mpr ⟨_, hfirst, ?_⟩
      have hrest := ih (k + 1) (state.1 - cost b, state.2 ++ out (b, k))
        (fun i b' state hb => by
          have hnext := h (i + 1) b' state hb
          rwa [← Nat.add_assoc, Nat.add_right_comm] at hnext)
        (by dsimp only; omega)
      rw [hrest]
      dsimp only
      rw [Nat.sub_sub, List.append_assoc]
  rw [List.range_eq_range']
  exact hloop 0 bs state (fun i b state hb => by rw [Nat.zero_add]; exact h i b state hb) hcost

theorem resolved_flatMap {β : Type} (bs : List β) (f : β → List (UInt64 × Nat)) :
    resolved data libs offsets (bs.flatMap f) =
      bs.flatMap fun b => resolved data libs offsets (f b) :=
  List.filterMap_flatMap

theorem length_encodePage (page : Option (Nat × List Link)) : (encodePage page).length = 2 :=
  length_toLe 2 _

theorem Payload.length_encodeInfo (segment : Option (Nat × Segment)) :
    (Payload.encodeInfo segment).length = 4 :=
  length_toLe 4 _

/-- The fields of a segment, each at its offset. -/
theorem Segment.encode_parts {s : Segment} {segStart : Nat}
    (h : s.encode <+: data.drop segStart) :
    toLe 2 s.pageSize <+: data.drop (segStart + 4) ∧
      toLe 2 s.pointerFormat <+: data.drop (segStart + 6) ∧
      toLe 8 s.segmentOffset <+: data.drop (segStart + 8) ∧
      toLe 2 s.pages.length <+: data.drop (segStart + 20) ∧
      s.pages.flatMap encodePage <+: data.drop (segStart + 22) := by
  obtain ⟨-, h⟩ := prefix_append h
  obtain ⟨hpageSize, h⟩ := prefix_append h
  obtain ⟨hformat, h⟩ := prefix_append h
  obtain ⟨hoffset, h⟩ := prefix_append h
  obtain ⟨-, h⟩ := prefix_append h
  obtain ⟨hcount, hpages⟩ := prefix_append h
  simp only [length_toLe, Nat.add_assoc] at hpageSize hformat hoffset hcount hpages
  exact ⟨hpageSize, hformat, hoffset, hcount, hpages⟩

theorem walkPage_stands (hdata : data.length ≤ ElfOs.isizeMax) {s : Segment} {segStart : Nat}
    (h : s.Stands m data segStart) {page : Nat} {entry : Option (Nat × List Link)}
    (hentry : s.pages[page]? = some entry) (state : Nat × List Bind)
    (hcost : pageLength entry ≤ state.1) :
    (walkPage m data libs offsets segStart s.segmentOffset s.pageSize state page).outcome =
      .ok (state.1 - pageLength entry,
        state.2 ++ resolved data libs offsets (s.pageBinds m (entry, page))) := by
  have hpages := (Segment.encode_parts h.encoded).2.2.2.2
  have hstart := prefix_flatMap length_encodePage hpages hentry
  have hlength := length_standing hstart
  rw [length_encodePage] at hlength
  have hmul : saturatingMul page 2 = page * 2 := saturatingMul_small (by omega)
  have hfield : saturatingAdd segStart 22 = segStart + 22 := saturatingAdd_small (by omega)
  have hplace : saturatingAdd (segStart + 22) (page * 2) = segStart + 22 + 2 * page := by
    rw [saturatingAdd_small (by omega), Nat.mul_comm]
  refine outcome_bind.mpr ⟨(), rfl, ?_⟩
  rw [hmul, hfield, hplace]
  obtain _ | ⟨start, links⟩ := entry
  · have hread : (readMacho 2 data (segStart + 22 + 2 * page)
        "starts_in_segment.page_start").outcome = .ok 0xFFFF :=
      readMacho_standing hdata hstart (by decide) (by decide) (by decide) _
    refine outcome_bind.mpr ⟨_, hread, ?_⟩
    have hnil : resolved data libs offsets (s.pageBinds m (none, page)) = [] := rfl
    rw [if_pos rfl, hnil, List.append_nil]
    rfl
  · have hsmall := h.starts page start links hentry
    have hread : (readMacho 2 data (segStart + 22 + 2 * page)
        "starts_in_segment.page_start").outcome = .ok start :=
      readMacho_standing hdata hstart (by decide) (by decide) (show start < 256 ^ 2 by omega) _
    refine outcome_bind.mpr ⟨_, hread, ?_⟩
    rw [if_neg (show ¬start = 0xFFFF by omega)]
    exact walkChain_stands (h.chains page start links hentry) hcost state.2

/-- The offset of a segment, as the reader finds it. -/
theorem Payload.read_info (hdata : data.length ≤ ElfOs.isizeMax) {p : Payload}
    (h : p.Stands m data) {i : Nat} {entry : Option (Nat × Segment)}
    (hentry : p.segments[i]? = some entry) :
    (readMachoU32 data (saturatingAdd (saturatingAdd p.offsets.starts 4) (saturatingMul i 4))
      "starts_in_image.seg_info_offset").outcome = .ok (entry.elim 0 fun entry => entry.1) := by
  obtain ⟨-, hinfos⟩ := prefix_append h.starts_stands
  rw [length_toLe] at hinfos
  have hinfo := prefix_flatMap Payload.length_encodeInfo hinfos hentry
  have hlength := length_standing hinfo
  rw [Payload.length_encodeInfo] at hlength
  have hmul : saturatingMul i 4 = i * 4 := saturatingMul_small (by omega)
  have hfield : saturatingAdd p.offsets.starts 4 = p.offsets.starts + 4 :=
    saturatingAdd_small (by omega)
  have hplace : saturatingAdd (p.offsets.starts + 4) (i * 4) = p.offsets.starts + 4 + 4 * i := by
    rw [saturatingAdd_small (by omega), Nat.mul_comm]
  have hfits : (entry.elim 0 fun entry => entry.1) < 256 ^ 4 := by
    obtain _ | ⟨info, s⟩ := entry
    · decide
    · exact (h.infos i info s hentry).2
  rw [hmul, hfield, hplace]
  exact readMacho_standing hdata hinfo (by decide) (by decide) hfits _

/-- A segment with fixups is walked page by page. -/
theorem walkSegment_some (hdata : data.length ≤ ElfOs.isizeMax) {p : Payload}
    (h : p.Stands m data) {i info : Nat} {s : Segment}
    (hentry : p.segments[i]? = some (some (info, s))) (state : Nat × List Bind) :
    (walkSegment m data libs p.offsets state i).outcome =
      (foldRun (walkPage m data libs p.offsets (p.offsets.starts + info) s.segmentOffset s.pageSize)
        state (List.range s.pages.length)).outcome := by
  obtain ⟨hpos, -⟩ := h.infos i info s hentry
  have hs := h.segments_stand i info s hentry
  obtain ⟨hpageSize, hformat, hoffset, hcount, -⟩ := Segment.encode_parts hs.encoded
  have hcountLength := length_standing hcount
  rw [length_toLe] at hcountLength
  have hsegStart : saturatingAdd p.offsets.starts info = p.offsets.starts + info :=
    saturatingAdd_small (by omega)
  have hinfo := Payload.read_info hdata h hentry
  rw [Option.elim_some] at hinfo
  have hformats : s.pointerFormat ∈ [2, 6] := by
    obtain hf | hf := hs.format <;> simp [hf]
  have hnonzero := hs.pageSize_pos
  unfold walkSegment
  refine (outcome_bind_ok hinfo).trans ?_
  rw [if_neg (show ¬info = 0 by omega), hsegStart]
  dsimp only
  rw [saturatingAdd_small (show p.offsets.starts + info + 4 ≤ ElfOs.isizeMax by omega),
    saturatingAdd_small (show p.offsets.starts + info + 6 ≤ ElfOs.isizeMax by omega),
    saturatingAdd_small (show p.offsets.starts + info + 8 ≤ ElfOs.isizeMax by omega),
    saturatingAdd_small (show p.offsets.starts + info + 20 ≤ ElfOs.isizeMax by omega)]
  refine (outcome_bind_ok (readMacho_standing hdata hpageSize (by decide) (by decide)
    hs.pageSize_fits _)).trans ?_
  refine (outcome_bind_ok (readMacho_standing hdata hformat (by decide) (by decide)
    (by obtain hf | hf := hs.format <;> omega) _)).trans ?_
  refine (outcome_bind_ok (readMacho_standing hdata hoffset (by decide) (by decide)
    hs.segmentOffset_fits _)).trans ?_
  refine (outcome_bind_ok (readMacho_standing hdata hcount (by decide) (by decide)
    hs.pages_fit _)).trans ?_
  rw [if_neg (not_or.mpr ⟨by omega, not_not.mpr hformats⟩)]

theorem walkSegment_stands (hdata : data.length ≤ ElfOs.isizeMax) {p : Payload}
    (h : p.Stands m data) {i : Nat} {entry : Option (Nat × Segment)}
    (hentry : p.segments[i]? = some entry) (state : Nat × List Bind)
    (hcost : Payload.segmentLength entry ≤ state.1) :
    (walkSegment m data libs p.offsets state i).outcome =
      .ok (state.1 - Payload.segmentLength entry,
        state.2 ++ resolved data libs p.offsets (entry.elim [] fun entry => entry.2.binds m)) := by
  obtain _ | ⟨info, s⟩ := entry
  · have hnil : resolved data libs p.offsets [] = [] := rfl
    unfold walkSegment
    refine (outcome_bind_ok (Payload.read_info hdata h hentry)).trans ?_
    rw [Option.elim_none, if_pos rfl, Option.elim_none, hnil, List.append_nil]
    rfl
  · have hs := h.segments_stand i info s hentry
    have hpage (page : Nat) (entry : Option (Nat × List Link)) (state : Nat × List Bind)
        (hentry : s.pages[page]? = some entry) (hcost : pageLength entry ≤ state.1) :
        (walkPage m data libs p.offsets (p.offsets.starts + info) s.segmentOffset s.pageSize state
          page).outcome = .ok (state.1 - pageLength entry,
            state.2 ++ resolved data libs p.offsets (s.pageBinds m (entry, page))) :=
      walkPage_stands hdata hs hentry state hcost
    have hloop := foldRun_range (fun entry => resolved data libs p.offsets (s.pageBinds m entry))
      hpage state hcost
    rw [walkSegment_some hdata h hentry, hloop, Option.elim_some, Segment.binds, resolved_flatMap]
    rfl

/-- The fields of the header, each at its offset. -/
theorem Payload.header_parts {p : Payload} (h : p.header <+: data.drop 0) :
    toLe 4 p.offsets.starts <+: data.drop 4 ∧ toLe 4 p.offsets.imports <+: data.drop 8 ∧
      toLe 4 p.offsets.symbols <+: data.drop 12 ∧ toLe 4 1 <+: data.drop 20 := by
  obtain ⟨-, h⟩ := prefix_append h
  obtain ⟨hstarts, h⟩ := prefix_append h
  obtain ⟨himports, h⟩ := prefix_append h
  obtain ⟨hsymbols, h⟩ := prefix_append h
  obtain ⟨-, h⟩ := prefix_append h
  obtain ⟨hformat, -⟩ := prefix_append h
  simp only [length_toLe, Nat.zero_add, Nat.reduceAdd] at hstarts himports hsymbols hformat
  exact ⟨hstarts, himports, hsymbols, hformat⟩

/-- What is read of a payload before its segments. -/
theorem parsePayload_segments (hdata : data.length ≤ ElfOs.isizeMax) {p : Payload}
    (h : p.Stands m data) :
    (parsePayload m data libs).outcome =
      (if maxMachoFixupSegments < p.segments.length then
        fail s!"chained-fixups seg_count {p.segments.length} exceeds limit {maxMachoFixupSegments}"
      else
        foldRun (walkSegment m data libs p.offsets) (maxMachoChainSteps, [])
          (List.range p.segments.length) >>= fun state => pure state.2 :
        Fixups (List Bind)).outcome := by
  obtain ⟨hstarts, himports, hsymbols, hformat⟩ := Payload.header_parts h.header_stands
  obtain ⟨hcountAt, -⟩ := prefix_append h.starts_stands
  refine (outcome_bind_ok (readMacho_standing hdata hstarts (by decide) (by decide)
    h.starts_fits _)).trans ?_
  refine (outcome_bind_ok (readMacho_standing hdata himports (by decide) (by decide)
    h.imports_fits _)).trans ?_
  refine (outcome_bind_ok (readMacho_standing hdata hsymbols (by decide) (by decide)
    h.symbols_fits _)).trans ?_
  refine (outcome_bind_ok (readMacho_standing hdata hformat (by decide) (by decide)
    (by decide) _)).trans ?_
  rw [if_neg (not_not.mpr rfl)]
  exact outcome_bind_ok (readMacho_standing hdata hcountAt (by decide) (by decide) h.count_fits _)

/-- A payload with too many segments is refused. -/
theorem parsePayload_overfull (hdata : data.length ≤ ElfOs.isizeMax) {p : Payload}
    (h : p.Stands m data) (hcount : maxMachoFixupSegments < p.segments.length) :
    (parsePayload m data libs).outcome = .error (.failed (.macho
      s!"chained-fixups seg_count {p.segments.length} exceeds limit {maxMachoFixupSegments}")) := by
  rw [parsePayload_segments hdata h, if_pos hcount]
  rfl

theorem parsePayload_eq (hdata : data.length ≤ ElfOs.isizeMax) {p : Payload} (h : p.Stands m data)
    (hcount : p.segments.length ≤ maxMachoFixupSegments) (hlength : p.length ≤ maxMachoChainSteps) :
    (parsePayload m data libs).outcome = .ok (resolved data libs p.offsets (p.binds m)) := by
  have hsegment (i : Nat) (entry : Option (Nat × Segment)) (state : Nat × List Bind)
      (hentry : p.segments[i]? = some entry) (hcost : Payload.segmentLength entry ≤ state.1) :
      (walkSegment m data libs p.offsets state i).outcome =
        .ok (state.1 - Payload.segmentLength entry, state.2 ++
          resolved data libs p.offsets (entry.elim [] fun entry => entry.2.binds m)) :=
    walkSegment_stands hdata h hentry state hcost
  have hloop := foldRun_range (fun entry : Option (Nat × Segment) × Nat =>
    resolved data libs p.offsets (entry.1.elim [] fun entry => entry.2.binds m))
    hsegment (maxMachoChainSteps, []) hlength
  have hplain : (p.segments.zipIdx.flatMap fun entry : Option (Nat × Segment) × Nat =>
      resolved data libs p.offsets (entry.1.elim [] fun entry => entry.2.binds m)) =
      resolved data libs p.offsets (p.binds m) := by
    rw [Payload.binds, resolved_flatMap]
    conv_rhs => rw [← List.zipIdx_map_fst 0 p.segments]
    rw [List.flatMap_map]
  rw [List.nil_append, hplain] at hloop
  rw [parsePayload_segments hdata h, if_neg (Nat.not_lt.mpr hcount)]
  exact outcome_bind.mpr ⟨_, hloop, rfl⟩

end

/-- From a payload with at most 256 segments and no more words than the step limit, exactly the bind
    words with a well-formed import are returned, in the order of segments, pages and chains. Every
    run ends without an index out of bounds, and the words and page starts it looks at are together
    at most the step limit plus the pages that the payload declares. -/
theorem parseMachoChainedFixups_exact (m : Mapped) (slice : ElfOs.ByteBuf) (libs : List String)
    (dataoff datasize : UInt32) :
    (∀ data p, payload slice dataoff datasize = some data → Payload.Stands p m data →
      p.segments.length ≤ maxMachoFixupSegments → p.length ≤ maxMachoChainSteps →
      (parseMachoChainedFixups m slice libs dataoff datasize).outcome =
          .ok (resolved data libs p.offsets (p.binds m)) ∧
        ∀ ordinal dylib symbol, importOf data libs p.offsets ordinal = some (dylib, symbol) ↔
          WellFormed data libs p.offsets ordinal dylib symbol) ∧
    (parseMachoChainedFixups m slice libs dataoff datasize).outcome ≠ .error .outOfBounds ∧
    (parseMachoChainedFixups m slice libs dataoff datasize).log.length ≤
      maxMachoChainSteps + ((payload slice dataoff datasize).map declaredPages).getD 0 := by
  refine ⟨fun data p hpayload h hcount hlength => ?_, ?_⟩
  · have hdata := length_payload hpayload
    refine ⟨?_, fun _ _ _ => importOf_iff hdata⟩
    obtain ⟨stop, hstop, -⟩ := Option.bind_eq_some_iff.mp hpayload
    refine outcome_bind.mpr ⟨_, orElse_some hstop _, ?_⟩
    refine outcome_bind.mpr ⟨_, orElse_some hpayload _, ?_⟩
    exact parsePayload_eq hdata h hcount hlength
  · obtain ⟨hvalue, hfault⟩ := within_parse m libs slice dataoff datasize
    refine ⟨fun hbad => (hfault _ hbad).1 rfl, ?_⟩
    cases hout : (parseMachoChainedFixups m slice libs dataoff datasize).outcome with
    | ok binds => exact hvalue binds hout
    | error fault => exact (hfault fault hout).2

/-! ## Sample payloads -/

/-- The whole of a slice. -/
theorem payload_whole {slice : ElfOs.ByteBuf} {datasize : UInt32}
    (h : slice.bytes.length = datasize.toNat) : payload slice 0 datasize = some slice.bytes := by
  have hsize := datasize.toNat_lt
  have hstop : ElfOs.checkedAdd (0 : UInt32).toNat datasize.toNat = some datasize.toNat := by
    rw [ElfOs.checkedAdd, UInt32.toNat_zero, Nat.zero_add, if_pos (by omega)]
  rw [payload, hstop, Option.bind_some, ElfOs.get, UInt32.toNat_zero,
    if_pos ⟨Nat.zero_le _, Nat.le_of_eq h.symm⟩, List.drop_zero, Nat.sub_zero, ← h, List.take_length]

/-- One page with a chain of two words: the first binds `_puts`, the second rebases a pointer. -/
def putsSegment : Segment where
  size := 24
  pageSize := 0x4000
  pointerFormat := 6
  segmentOffset := 0x4000
  maxValidPointer := 0
  pages := [none, some (8, [⟨.bind 0 0 0, 2⟩, ⟨.rebase 0x1000 0 0, 0⟩])]

def putsPayload : Payload where
  version := 0
  importsCount := 1
  symbolsFormat := 0
  offsets := ⟨28, 62, 66⟩
  segments := [some (8, putsSegment)]

/-- The import of `_puts` from the first library, behind the tables. -/
def putsImport : List UInt8 := toLe 4 (1 + 2 ^ 9 * 1) ++ 0 :: (ElfOs.ascii "_puts" ++ [0])

def putsSlice : ElfOs.ByteBuf where
  bytes := putsPayload.header ++ (putsPayload.starts ++ (putsSegment.encode ++ putsImport))
  bounded := by decide +kernel

/-- The second page of the segment, in the image. -/
def putsMapped : Mapped where
  architecture := .x64
  imageBase := 0x100000000
  regions :=
    { Regions.empty with
      sections := [⟨0x100008000, 0x18, ⟨true, true, false⟩⟩]
      mappedBytes := [toLe 8 0 ++ toLe 8 (Link.value ⟨.bind 0 0 0, 2⟩) ++
        toLe 8 (Link.value ⟨.rebase 0x1000 0 0, 0⟩)] }

theorem putsSegment_stands : putsSegment.Stands putsMapped putsSlice.bytes 36 where
  encoded := ⟨putsImport, by decide +kernel⟩
  pageSize_pos := by decide
  pageSize_fits := by decide
  format := Or.inr rfl
  segmentOffset_fits := by decide
  pages_fit := by decide
  starts := by
    intro page start links hpage
    obtain _ | _ | page := page
    · cases hpage
    · obtain ⟨rfl, -⟩ := Prod.mk.inj (Option.some.inj (Option.some.inj hpage))
      decide
    · cases hpage
  chains := by
    intro page start links hpage
    obtain _ | _ | page := page
    · cases hpage
    · obtain ⟨rfl, rfl⟩ := Prod.mk.inj (Option.some.inj (Option.some.inj hpage))
      have hfirst (va : UInt64) (hva : (⟨0x100008000, 0x18, ⟨true, true, false⟩⟩ :
          Recovery.MappedSection).containsVa va = true) :
          FirstAt putsMapped.regions.sections va 0 ⟨0x100008000, 0x18, ⟨true, true, false⟩⟩ :=
        ⟨rfl, hva, fun j hj => absurd hj (Nat.not_lt_zero j)⟩
      have hbind : (⟨.bind 0 0 0, 2⟩ : Link).Fits := ⟨by decide, by decide, by decide, by decide⟩
      have hrebase : (⟨.rebase 0x1000 0 0, 0⟩ : Link).Fits :=
        ⟨by decide, by decide, by decide, by decide⟩
      exact ⟨hbind, ⟨0, _, _, hfirst _ (by decide +kernel), rfl, by decide +kernel⟩, by decide,
        hrebase, ⟨0, _, _, hfirst _ (by decide +kernel), rfl, by decide +kernel⟩, rfl⟩
    · cases hpage

theorem putsPayload_stands : putsPayload.Stands putsMapped putsSlice.bytes where
  header_stands := ⟨_, rfl⟩
  starts_fits := by decide
  imports_fits := by decide
  symbols_fits := by decide
  starts_stands := ⟨putsSegment.encode ++ putsImport, by decide +kernel⟩
  count_fits := by decide
  infos := by
    intro i info s hs
    obtain _ | i := i
    · obtain ⟨rfl, -⟩ := Prod.mk.inj (Option.some.inj (Option.some.inj hs))
      decide
    · cases hs
  segments_stand := by
    intro i info s hs
    obtain _ | i := i
    · obtain ⟨rfl, rfl⟩ := Prod.mk.inj (Option.some.inj (Option.some.inj hs))
      exact putsSegment_stands
    · cases hs

theorem parseMachoChainedFixups_exact_puts :
    (parseMachoChainedFixups putsMapped putsSlice ["self", "libSystem"] 0 73).outcome =
      .ok [⟨0x100008008, "libSystem", ElfOs.ascii "_puts"⟩] := by
  have hwhole : payload putsSlice 0 73 = some putsSlice.bytes := payload_whole (by decide +kernel)
  have hexact := ((parseMachoChainedFixups_exact putsMapped putsSlice ["self", "libSystem"] 0 73).1
    _ _ hwhole putsPayload_stands (by decide) (by decide)).1
  have hbinds : resolved putsSlice.bytes ["self", "libSystem"] putsPayload.offsets
      (putsPayload.binds putsMapped) = [⟨0x100008008, "libSystem", ElfOs.ascii "_puts"⟩] := by
    decide +kernel
  rw [hexact, hbinds]

/-- One more segment than the limit, none of them with fixups. -/
def overfullPayload : Payload where
  version := 0
  importsCount := 0
  symbolsFormat := 0
  offsets := ⟨28, 0, 0⟩
  segments := List.replicate 257 none

def overfullSlice : ElfOs.ByteBuf where
  bytes := overfullPayload.header ++ overfullPayload.starts
  bounded := by decide +kernel

theorem overfullPayload_stands : overfullPayload.Stands putsMapped overfullSlice.bytes where
  header_stands := by
    rw [List.drop_zero]
    exact List.prefix_append _ _
  starts_fits := by decide
  imports_fits := by decide
  symbols_fits := by decide
  starts_stands := by decide +kernel
  count_fits := by decide +kernel
  infos := fun _ _ _ hs => (nomatch List.eq_of_mem_replicate (List.mem_of_getElem? hs))
  segments_stand := fun _ _ _ hs => (nomatch List.eq_of_mem_replicate (List.mem_of_getElem? hs))

/-- It has no bind words, and is refused. -/
theorem parseMachoChainedFixups_overfull :
    payload overfullSlice 0 1060 = some overfullSlice.bytes ∧
      overfullPayload.Stands putsMapped overfullSlice.bytes ∧ overfullPayload.length = 0 ∧
      overfullPayload.binds putsMapped = [] ∧
      (parseMachoChainedFixups putsMapped overfullSlice [] 0 1060).outcome =
        .error (.failed (.macho "chained-fixups seg_count 257 exceeds limit 256")) := by
  have hwhole : payload overfullSlice 0 1060 = some overfullSlice.bytes :=
    payload_whole (by decide +kernel)
  refine ⟨hwhole, overfullPayload_stands, by decide +kernel, by decide +kernel, ?_⟩
  obtain ⟨stop, hstop, -⟩ := Option.bind_eq_some_iff.mp hwhole
  refine (outcome_bind_ok (orElse_some hstop _)).trans ?_
  refine (outcome_bind_ok (orElse_some hwhole _)).trans ?_
  have hcount : overfullPayload.segments.length = 257 := List.length_replicate
  have hover : (parsePayload putsMapped overfullSlice.bytes []).outcome = _ :=
    parsePayload_overfull (length_payload hwhole) overfullPayload_stands (by decide +kernel)
  have htext : s!"chained-fixups seg_count {257} exceeds limit {maxMachoFixupSegments}" =
      "chained-fixups seg_count 257 exceeds limit 256" := by decide +kernel
  rw [hcount, htext] at hover
  exact hover

end CapaX.Loader.ChainedFixups
