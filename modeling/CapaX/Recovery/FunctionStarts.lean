import CapaX.Codec.Leb128
import CapaX.Control.Except
import CapaX.ElfOs.Reading
import CapaX.Recovery.Seeds

/-
  The function starts of a Mach-O image (`collect_macho_function_starts` in `recovery.rs`): a table
  of ULEB128 deltas, cumulative from the image base, up to a zero delta or the end of the region.
  Sums that panic when they overflow are faults of the model (`Fault`), and so is a loop that is
  still going after as many turns as the region has bytes, and one more.
-/

namespace CapaX.Recovery

open Collections Control Codec

namespace FunctionStarts

inductive Fault where
  | addOverflow | diverges
  deriving DecidableEq, Repr

/-- A sum of `bits` wide numbers. -/
def add (bits a b : Nat) : Except Fault Nat :=
  if a + b < 2 ^ bits then .ok (a + b) else .error .addOverflow

def checkedShl (value : UInt64) (shift : Nat) : Option UInt64 :=
  if shift < 64 then some (value <<< UInt64.ofNat shift) else none

/-- The inner loop: one delta and the offset behind it, or `none` where the source returns. -/
def readDelta (data : List UInt8) :
    Nat → Nat → UInt64 → Nat → Except Fault (Option (UInt64 × Nat))
  | 0, _, _, _ => .error .diverges
  | turns + 1, offset, result, shift =>
    match data[offset]? with
    | none => .ok none
    | some byte => do
      let offset ← add 64 offset 1
      let result := result ||| (checkedShl (byte &&& 0x7f).toUInt64 shift).getD 0
      if byte &&& 0x80 = 0 then .ok (some (result, offset))
      else
        let shift ← add 32 shift 7
        if 64 ≤ shift then .ok none else readDelta data turns offset result shift

section

variable {A : Architecture} (image : RecoveryImage A)

/-- The loop over the table. -/
def readTable (data : List UInt8) : Nat → UInt64 → Nat → SeedMap → Except Fault SeedMap
  | 0, _, _, _ => .error .diverges
  | turns + 1, address, offset, seeds =>
    if offset < data.length then do
      match ← readDelta data (data.length + 1) offset 0 0 with
      | none => .ok seeds
      | some (result, offset) =>
        if result = 0 then .ok seeds
        else
          let address := saturatingAdd address result.toNat
          readTable data turns address offset (addSeed image seeds address .machoFunctionStarts)
    else .ok seeds

end

end FunctionStarts

section

variable {A : Architecture}

def collectMachoFunctionStarts (slice : ElfOs.ByteBuf) (imageBase : UInt64)
    (dataoff datasize : UInt32) (image : RecoveryImage A) (seeds : SeedMap) :
    Except FunctionStarts.Fault SeedMap :=
  let base := dataoff.toNat
  let size := datasize.toNat
  match (ElfOs.checkedAdd base size).bind (ElfOs.get slice.bytes base) with
  | none => .ok seeds
  | some data => FunctionStarts.readTable image data (data.length + 1) imageBase 0 seeds

end

/-! ## Seeds of a map -/

namespace SeedMap

/-- The address is a seed of this kind. -/
def Has (seeds : SeedMap) (address : UInt64) (kind : SeedKind) : Prop :=
  ∃ kinds, seeds.get? address = some kinds ∧ kind ∈ kinds

theorem has_insertKind {seeds : SeedMap} {address a : UInt64} {kind k : SeedKind} :
    (seeds.insertKind address kind).Has a k ↔ seeds.Has a k ∨ (a = address ∧ k = kind) := by
  unfold Has insertKind
  rw [OrdMap.get?_upsert]
  by_cases ha : a = address
  · subst ha
    rw [if_pos rfl]
    cases seeds.get? a with
    | none => simp
    | some kinds => simp [or_comm]
  · simp [ha]

end SeedMap

section

variable {A : Architecture} {image : RecoveryImage A} {seeds : SeedMap}

theorem has_addSeed {address a : UInt64} {kind k : SeedKind} :
    (addSeed image seeds address kind).Has a k ↔
      seeds.Has a k ∨ (a = address ∧ k = kind ∧ image.isExecutableAddress address = true) := by
  unfold addSeed
  split
  · next hexec => simp [SeedMap.has_insertKind, hexec]
  · next hexec => simp [hexec]

end

namespace FunctionStarts

variable {data : List UInt8}

/-! ## Every region -/

theorem add_ok {bits a b : Nat} (h : a + b < 2 ^ bits) : add bits a b = .ok (a + b) := if_pos h

/-- A turn of the inner loop: the payload goes above the bits so far, and neither sum overflows. -/
theorem readDelta_byte (hdata : data.length ≤ ElfOs.isizeMax) {offset shift : Nat} {byte : UInt8}
    (hbyte : data[offset]? = some byte) (hshift : shift < 64) (turns : Nat) (result : UInt64) :
    readDelta data (turns + 1) offset result shift =
      let gathered := result ||| ((byte &&& 0x7f).toUInt64 <<< UInt64.ofNat shift)
      if byte.toNat < 128 then .ok (some (gathered, offset + 1))
      else if 64 ≤ shift + 7 then .ok none
      else readDelta data turns (offset + 1) gathered (shift + 7) := by
  have hlt : offset < data.length := (List.getElem?_eq_some_iff.mp hbyte).1
  have hnext : add 64 offset 1 = .ok (offset + 1) := by
    apply add_ok
    unfold ElfOs.isizeMax at hdata
    omega
  have hmore : add 32 shift 7 = .ok (shift + 7) := add_ok (by omega)
  have hshl : (checkedShl (byte &&& 0x7f).toUInt64 shift).getD 0 =
      (byte &&& 0x7f).toUInt64 <<< UInt64.ofNat shift := by
    rw [checkedShl, if_pos hshift, Option.getD_some]
  rw [readDelta, hbyte]
  simp only [hnext, hmore, hshl, Leb128.and_high_eq_zero_iff]
  rfl

/-- A turn consumes a byte or ends the loop, and the shift stays below that of the tenth byte. -/
theorem readDelta_returns (hdata : data.length ≤ ElfOs.isizeMax) (turns offset : Nat)
    (result : UInt64) (shift : Nat) (hturns : data.length < offset + turns)
    (hoffset : offset ≤ data.length)
    (hshift : shift < 64) :
    ∃ delta, readDelta data turns offset result shift = .ok delta ∧
      ∀ found, delta = some found → offset < found.2 ∧ found.2 ≤ data.length := by
  induction turns generalizing offset result shift with
  | zero => omega
  | succ turns ih =>
    cases hbyte : data[offset]? with
    | none => exact ⟨none, by rw [readDelta, hbyte], fun _ h => nomatch h⟩
    | some byte =>
      have hlt : offset < data.length := (List.getElem?_eq_some_iff.mp hbyte).1
      rw [readDelta_byte hdata hbyte hshift]
      dsimp only
      split
      · refine ⟨_, rfl, fun found h => ?_⟩
        obtain rfl := Option.some.inj h
        exact ⟨Nat.lt_succ_self offset, hlt⟩
      · split
        · exact ⟨none, rfl, fun _ h => nomatch h⟩
        · obtain ⟨delta, hdelta, hfound⟩ :=
            ih (offset + 1) (result ||| ((byte &&& 0x7f).toUInt64 <<< UInt64.ofNat shift))
              (shift + 7) (by omega) hlt (by omega)
          refine ⟨delta, hdelta, fun found h => ?_⟩
          obtain ⟨hlow, hhigh⟩ := hfound found h
          exact ⟨by omega, hhigh⟩

/-- The loop ends, and what it adds are executable function starts. -/
theorem readTable_returns {A : Architecture} (image : RecoveryImage A)
    (hdata : data.length ≤ ElfOs.isizeMax) {turns offset : Nat} (address : UInt64)
    (seeds : SeedMap) (hturns : data.length < offset + turns) (hoffset : offset ≤ data.length) :
    ∃ seeds', readTable image data turns address offset seeds = .ok seeds' ∧
      ∀ a k, (seeds.Has a k → seeds'.Has a k) ∧ (seeds'.Has a k → seeds.Has a k ∨
        (k = .machoFunctionStarts ∧ image.isExecutableAddress a = true)) := by
  induction turns generalizing offset address seeds with
  | zero => omega
  | succ turns ih =>
    rw [readTable]
    split
    · have hturn : ∃ delta, readDelta data (data.length + 1) offset 0 0 = .ok delta ∧
          ∀ found, delta = some found → offset < found.2 ∧ found.2 ≤ data.length :=
        readDelta_returns hdata _ offset 0 0 (by omega) hoffset (by omega)
      obtain ⟨delta, hdelta, hfound⟩ := hturn
      rw [hdelta]
      cases delta with
      | none => exact ⟨seeds, rfl, fun a k => ⟨id, Or.inl⟩⟩
      | some found =>
        obtain ⟨result, next⟩ := found
        obtain ⟨hlow, hhigh⟩ := hfound _ rfl
        dsimp only at hlow hhigh
        show ∃ seeds', (if result = 0 then _ else _) = _ ∧ _
        split
        · exact ⟨seeds, rfl, fun a k => ⟨id, Or.inl⟩⟩
        · obtain ⟨seeds', hseeds', hhas⟩ := ih (saturatingAdd address result.toNat)
            (addSeed image seeds (saturatingAdd address result.toNat) .machoFunctionStarts)
            (by omega) hhigh
          refine ⟨seeds', hseeds', fun a k => ⟨fun h => ?_, fun h => ?_⟩⟩
          · exact (hhas a k).1 (has_addSeed.mpr (Or.inl h))
          · obtain h | h := (hhas a k).2 h
            · obtain h | ⟨rfl, rfl, hexec⟩ := has_addSeed.mp h
              · exact Or.inl h
              · exact Or.inr ⟨rfl, hexec⟩
            · exact Or.inr h
    · exact ⟨seeds, rfl, fun a k => ⟨id, Or.inl⟩⟩

/-! ## Encoded tables -/

/-- The differences of an increasing list of addresses, encoded one after another. -/
def encodeStarts : UInt64 → List UInt64 → List UInt8
  | _, [] => []
  | last, address :: rest =>
    Leb128.encode (address.toNat - last.toNat) ++ encodeStarts address rest

theorem getElem?_of_drop {offset : Nat} {byte : UInt8} {rest : List UInt8}
    (h : data.drop offset = byte :: rest) : data[offset]? = some byte := by
  have hhead : (data.drop offset)[0]? = some byte := by rw [h]; rfl
  rwa [List.getElem?_drop, Nat.add_zero] at hhead

theorem drop_of_drop {offset : Nat} {front rest : List UInt8}
    (h : data.drop offset = front ++ rest) : data.drop (offset + front.length) = rest := by
  rw [← List.drop_drop, h, List.drop_left]

/-- The payload of a byte that holds `n` in its low bits. -/
theorem payload_ofNat {n : Nat} (h : n < 256) :
    ((UInt8.ofNat n &&& 0x7f).toUInt64).toNat = n % 128 := by
  rw [UInt8.toNat_toUInt64, Leb128.payload_toNat, Leb128.toNat_ofNat_byte h]

/-- The loop gathers an encoded number above the bits it has. The number fits, so the last byte
    comes before the shift leaves the word. -/
theorem readDelta_encode (hdata : data.length ≤ ElfOs.isizeMax) (n turns offset : Nat)
    (result : UInt64) (shift : Nat) {rest : List UInt8}
    (hdrop : data.drop offset = Leb128.encode n ++ rest)
    (hturns : (Leb128.encode n).length ≤ turns) (hshift : shift < 64)
    (hresult : result.toNat < 2 ^ shift) (hfit : result.toNat + n * 2 ^ shift < 2 ^ 64) :
    ∃ value, readDelta data turns offset result shift =
        .ok (some (value, offset + (Leb128.encode n).length)) ∧
      value.toNat = result.toNat + n * 2 ^ shift := by
  induction n using Nat.strongRecOn generalizing turns offset shift result with
  | ind n ih =>
    obtain ⟨turns, rfl⟩ : ∃ k, turns = k + 1 :=
      ⟨turns - 1, by have hpos := Leb128.length_encode_pos n; omega⟩
    have hpow : 0 < 2 ^ shift := Nat.two_pow_pos shift
    have hlow : n % 128 * 2 ^ shift ≤ n * 2 ^ shift :=
      Nat.mul_le_mul_right _ (Nat.mod_le n 128)
    by_cases hlast : n < 128
    · rw [Leb128.encode_of_lt hlast] at hdrop ⊢
      have hbyte := Leb128.toNat_ofNat_byte (show n < 256 by omega)
      have hpayload := payload_ofNat (show n < 256 by omega)
      rw [Nat.mod_eq_of_lt hlast] at hpayload
      rw [readDelta_byte hdata (getElem?_of_drop hdrop) hshift]
      dsimp only
      rw [hbyte, if_pos hlast]
      refine ⟨_, rfl, ?_⟩
      rw [Leb128.or_shiftLeft_toNat hresult hshift (by rw [hpayload]; omega), hpayload]
    · have hle : 128 ≤ n := by omega
      rw [Leb128.encode_of_le hle] at hdrop hturns ⊢
      have hbyte := Leb128.toNat_ofNat_byte (show n % 128 + 128 < 256 by omega)
      have hpayload := payload_ofNat (show n % 128 + 128 < 256 by omega)
      have hmod : (n % 128 + 128) % 128 = n % 128 := by omega
      rw [hmod] at hpayload
      have hfits : ((UInt8.ofNat (n % 128 + 128) &&& 0x7f).toUInt64).toNat * 2 ^ shift < 2 ^ 64 := by
        rw [hpayload]
        omega
      have hgathered := Leb128.or_shiftLeft_toNat hresult hshift hfits
      rw [hpayload] at hgathered
      have hnext : 2 ^ (shift + 7) = 128 * 2 ^ shift := by rw [Nat.pow_add, Nat.mul_comm]
      have hsum := Leb128.gathered result.toNat n shift
      have hroom : ¬ 64 ≤ shift + 7 := by
        intro hshift'
        have hbig : 2 ^ 64 ≤ 2 ^ (shift + 7) := Nat.pow_le_pow_right (by omega) hshift'
        have hmul : 128 * 2 ^ shift ≤ n * 2 ^ shift := Nat.mul_le_mul_right _ hle
        omega
      have hbelow : n % 128 * 2 ^ shift ≤ 127 * 2 ^ shift :=
        Nat.mul_le_mul_right _ (by omega)
      rw [readDelta_byte hdata (getElem?_of_drop hdrop) hshift]
      dsimp only
      rw [hbyte, if_neg (by omega), if_neg hroom]
      have hrest : data.drop (offset + 1) = Leb128.encode (n / 128) ++ rest :=
        drop_of_drop (show data.drop offset = [_] ++ _ from hdrop)
      obtain ⟨value, hvalue, hsame⟩ := ih (n / 128) (by omega) turns (offset + 1) _
        (shift + 7) hrest (Nat.le_of_succ_le_succ hturns) (by omega) (by rw [hgathered]; omega)
        (by rw [hgathered]; omega)
      refine ⟨value, ?_, ?_⟩
      · rw [hvalue, List.length_cons, Nat.add_right_comm, Nat.add_assoc]
      · rw [hsame, hgathered]
        omega

/-- What stands behind the last start: nothing, or a zero byte and any padding. -/
def EndsTable (tail : List UInt8) : Prop := tail = [] ∨ ∃ padding, tail = 0 :: padding

variable {A : Architecture} {image : RecoveryImage A}

/-- A table without starts adds none. -/
theorem readTable_tail (hdata : data.length ≤ ElfOs.isizeMax) {turns offset : Nat}
    {tail : List UInt8} (address : UInt64) (seeds : SeedMap) (hdrop : data.drop offset = tail)
    (htail : EndsTable tail) (hturns : 0 < turns) :
    readTable image data turns address offset seeds = .ok seeds := by
  obtain ⟨turns, rfl⟩ : ∃ k, turns = k + 1 := ⟨turns - 1, by omega⟩
  rw [readTable]
  obtain rfl | ⟨padding, rfl⟩ := htail
  · rw [if_neg (Nat.not_lt.mpr (List.drop_eq_nil_iff.mp hdrop))]
  · have hlt : offset < data.length := (List.getElem?_eq_some_iff.mp (getElem?_of_drop hdrop)).1
    have hzero : data.drop offset = Leb128.encode 0 ++ padding := by
      rw [hdrop, Leb128.encode_of_lt (by omega)]
      rfl
    obtain ⟨value, hvalue, hsame⟩ := readDelta_encode hdata 0 (data.length + 1) offset 0 0 hzero
      (by rw [Leb128.encode_of_lt (by omega)]; simp) (by omega) (by decide) (by decide)
    have hvalue0 : value = 0 := by
      apply UInt64.toNat_inj.mp
      rw [hsame]
      rfl
    subst hvalue0
    rw [if_pos hlt, hvalue]
    rfl

/-- The loop adds the encoded starts: each delta leads from one to the next. -/
theorem readTable_encodeStarts (hdata : data.length ≤ ElfOs.isizeMax) {addresses : List UInt64}
    {tail : List UInt8} (htail : EndsTable tail) (turns offset : Nat) {address : UInt64}
    (seeds : SeedMap) (hsorted : (address :: addresses).Pairwise (· < ·))
    (hexec : ∀ a ∈ addresses, image.isExecutableAddress a = true)
    (hdrop : data.drop offset = encodeStarts address addresses ++ tail)
    (hturns : data.length < offset + turns) (hoffset : offset ≤ data.length) :
    ∃ seeds', readTable image data turns address offset seeds = .ok seeds' ∧
      ∀ a k, seeds'.Has a k ↔ seeds.Has a k ∨ (k = .machoFunctionStarts ∧ a ∈ addresses) := by
  induction addresses generalizing turns offset address seeds with
  | nil =>
    exact ⟨seeds, readTable_tail hdata address seeds hdrop htail (by omega), fun a k => by simp⟩
  | cons start rest ih =>
    obtain ⟨hlater, hrest⟩ := List.pairwise_cons.mp hsorted
    have hlt : address.toNat < start.toNat := UInt64.lt_iff_toNat_lt.mp (hlater start (by simp))
    have hstart := start.toNat_lt
    rw [encodeStarts, List.append_assoc] at hdrop
    have hpos := Leb128.length_encode_pos (start.toNat - address.toNat)
    have hlength := congrArg List.length hdrop
    rw [List.length_drop, List.length_append] at hlength
    obtain ⟨turns, rfl⟩ : ∃ k, turns = k + 1 := ⟨turns - 1, by omega⟩
    obtain ⟨value, hvalue, hsame⟩ := readDelta_encode hdata (start.toNat - address.toNat)
      (data.length + 1) offset 0 0 hdrop (by omega) (by omega) (by decide)
      (by rw [UInt64.toNat_zero]; omega)
    rw [UInt64.toNat_zero, Nat.pow_zero, Nat.mul_one, Nat.zero_add] at hsame
    have hnonzero : value ≠ 0 := by
      intro h
      rw [h, UInt64.toNat_zero] at hsame
      omega
    have hsum : saturatingAdd address value.toNat = start := by
      rw [hsame, saturatingAdd, checkedAdd, if_pos (by omega), Option.getD_some,
        Nat.add_sub_cancel' (Nat.le_of_lt hlt), UInt64.ofNat_toNat]
    obtain ⟨seeds', hseeds', hhas⟩ := ih turns
      (offset + (Leb128.encode (start.toNat - address.toNat)).length)
      (addSeed image seeds start .machoFunctionStarts) hrest
      (fun a ha => hexec a (List.mem_cons_of_mem _ ha)) (drop_of_drop hdrop) (by omega) (by omega)
    refine ⟨seeds', ?_, fun a k => ?_⟩
    · rw [readTable, if_pos (by omega), hvalue]
      show (if value = 0 then _ else _) = _
      rw [if_neg hnonzero, hsum]
      exact hseeds'
    · have hexecStart := hexec start List.mem_cons_self
      rw [hhas, has_addSeed, List.mem_cons]
      constructor
      · rintro ((h | ⟨ha, hk, -⟩) | ⟨hk, ha⟩)
        · exact Or.inl h
        · exact Or.inr ⟨hk, Or.inl ha⟩
        · exact Or.inr ⟨hk, Or.inr ha⟩
      · rintro (h | ⟨hk, ha | ha⟩)
        · exact Or.inl (Or.inl h)
        · exact Or.inl (Or.inr ⟨ha, hk, hexecStart⟩)
        · exact Or.inr ⟨hk, ha⟩

theorem length_of_get {buf : List UInt8} {start stop : Nat}
    (h : ElfOs.get buf start stop = some data) : data.length ≤ buf.length := by
  obtain ⟨-, hstop, hlength⟩ := ElfOs.get_eq_some h
  omega

end FunctionStarts

open FunctionStarts in
/-- The table of function starts is read whatever the region holds, and reading inverts encoding:
    a region that holds an increasing list of executable addresses, up to its end or up to a zero
    byte and any padding, adds just these. -/
theorem collectMachoFunctionStarts_exact {A : Architecture} (image : RecoveryImage A)
    (slice : ElfOs.ByteBuf) (imageBase : UInt64) (dataoff datasize : UInt32) (seeds : SeedMap) :
    (∃ seeds', collectMachoFunctionStarts slice imageBase dataoff datasize image seeds =
        .ok seeds' ∧
      ∀ a k, (seeds.Has a k → seeds'.Has a k) ∧ (seeds'.Has a k → seeds.Has a k ∨
        (k = .machoFunctionStarts ∧ image.isExecutableAddress a = true))) ∧
    ∀ addresses tail, (imageBase :: addresses).Pairwise (· < ·) →
      (∀ a ∈ addresses, image.isExecutableAddress a = true) → EndsTable tail →
      ElfOs.get slice.bytes dataoff.toNat (dataoff.toNat + datasize.toNat) =
        some (encodeStarts imageBase addresses ++ tail) →
      ∃ seeds', collectMachoFunctionStarts slice imageBase dataoff datasize image seeds =
          .ok seeds' ∧
        ∀ a k, seeds'.Has a k ↔ seeds.Has a k ∨ (k = .machoFunctionStarts ∧ a ∈ addresses) := by
  have hend : ElfOs.checkedAdd dataoff.toNat datasize.toNat =
      some (dataoff.toNat + datasize.toNat) := by
    have hoff := dataoff.toNat_lt
    have hsize := datasize.toNat_lt
    exact if_pos (by omega)
  unfold collectMachoFunctionStarts
  dsimp only
  rw [hend]
  dsimp only [Option.bind_some]
  constructor
  · cases hdata : ElfOs.get slice.bytes dataoff.toNat (dataoff.toNat + datasize.toNat) with
    | none => exact ⟨seeds, rfl, fun a k => ⟨id, Or.inl⟩⟩
    | some data =>
      have hbound := (length_of_get hdata).trans slice.bounded
      exact readTable_returns image hbound imageBase seeds (by omega) (by omega)
  · intro addresses tail hsorted hexec htail hdata
    have hbound := (length_of_get hdata).trans slice.bounded
    rw [hdata]
    exact readTable_encodeStarts hbound htail _ 0 seeds hsorted hexec List.drop_zero (by omega)
      (Nat.zero_le _)

/-! ## A table with two starts -/

namespace FunctionStarts

/-- Executable addresses from `0x1000` on. -/
def twoStartsImage : RecoveryImage .x64 where
  sections := [⟨0x1000, 0x100, ⟨true, false, true⟩⟩]
  externalBindings := ∅
  uninitialized := []
  mappedBytes := [List.replicate 0x100 0]
  decodeAt := fun _ => .error "no code"
  format := .macho
  entryPoint := none
  sectionFiles := [("__text", 0x100)]
  importLocations := ∅
  primaryCode := [(0x1000, 0x1100)]
  deadData := []
  elfPltRanges := []
  opKinds := fun _ => []

/-- The deltas 1 and 200, a zero byte, and one byte of padding. -/
def twoStarts : ElfOs.ByteBuf := ⟨[1, 0xc8, 1, 0, 7], by decide⟩

theorem twoStarts_eq : twoStarts.bytes = encodeStarts 0x1000 [0x1001, 0x10c9] ++ [0, 7] := by
  show [1, 0xc8, 1, 0, 7] =
    (Leb128.encode 1 ++ (Leb128.encode 200 ++ [])) ++ ([0, 7] : List UInt8)
  rw [Leb128.encode_of_lt (by decide), Leb128.encode_of_le (by decide),
    Leb128.encode_of_lt (by decide)]
  rfl

theorem twoStarts_executable :
    ([0x1001, 0x10c9].all fun a => twoStartsImage.isExecutableAddress a) = true := by
  decide +kernel

end FunctionStarts

open FunctionStarts in
theorem collectMachoFunctionStarts_exact_twoStarts :
    ∃ seeds', collectMachoFunctionStarts twoStarts 0x1000 0 5 twoStartsImage ∅ = .ok seeds' ∧
      ∀ a k, seeds'.Has a k ↔
        (∅ : SeedMap).Has a k ∨ (k = .machoFunctionStarts ∧ a ∈ [0x1001, 0x10c9]) :=
  (collectMachoFunctionStarts_exact twoStartsImage twoStarts 0x1000 0 5 ∅).2 [0x1001, 0x10c9]
    [0, 7] (by decide) (List.all_eq_true.mp twoStarts_executable) (Or.inr ⟨[7], rfl⟩)
    (by rw [← twoStarts_eq]; rfl)

end CapaX.Recovery
