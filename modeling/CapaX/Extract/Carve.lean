import CapaX.ElfOs.Reading
import Mathlib.Data.List.Sort

/-
  Carving embedded PE files (`helpers.rs`). One pass over the pairs of neighbouring bytes, the
  key read off the first byte of each; the reference scans the buffer once for each of the 256
  keys. Offsets are naturals with the checks of the source; a buffer is never longer than
  `isize::MAX`, so none of them fails.
-/

namespace CapaX.Extract

open ElfOs

/-- `MAX_OFFSET_PE_AFTER_MZ`. -/
def maxOffsetPeAfterMz : Nat := 0x200

/-- `buf.get(off..).and_then(|tail| tail.get(..n))`. -/
def getAt (buf : List UInt8) (off n : Nat) : Option (List UInt8) :=
  (get buf off buf.length).bind fun tail => get tail 0 n

/-- `windows(2)`. -/
def windows2 (tail : List UInt8) : List (UInt8 × UInt8) := tail.zip tail.tail

/-- What the pass makes of one pair. -/
def carveAt (buf : List UInt8) (offset relative : Nat) (first second : UInt8) :
    Option (Nat × UInt8) :=
  let key := first ^^^ 0x4d
  if second ^^^ key ≠ 0x5a then none
  else
    let off := offset + relative
    (checkedAdd off 0x3c).bind fun e_lfanew =>
      match getAt buf e_lfanew 4 with
      | some [a, b, c, d] =>
        let newoff := fromBytes false [a ^^^ key, b ^^^ key, c ^^^ key, d ^^^ key]
        if maxOffsetPeAfterMz < newoff then none
        else
          (checkedAdd off newoff).bind fun peoff =>
            if getAt buf peoff 2 = some [0x50 ^^^ key, 0x45 ^^^ key] then some (off, key) else none
      | _ => none

/-- `(Reverse(key), off)`. -/
def carveOrder (x y : Nat × UInt8) : Prop := y.2 < x.2 ∨ (x.2 = y.2 ∧ x.1 ≤ y.1)

instance : DecidableRel carveOrder := fun _ _ => inferInstanceAs (Decidable (_ ∨ _))

def candidates (buf : List UInt8) (offset : Nat) : List (Nat × UInt8) :=
  match get buf offset buf.length with
  | none => []
  | some tail =>
    (windows2 tail).zipIdx.filterMap fun p => carveAt buf offset p.2 p.1.1 p.1.2

def carvePe (buf : ByteBuf) (offset : Nat) : List (Nat × UInt8) :=
  (candidates buf.bytes offset).insertionSort carveOrder

/-! ## The reference -/

/-- The little-endian number in the four bytes at `off`, read under a key. -/
def keyedU32 (buf : List UInt8) (key : UInt8) (off : Nat) : Option Nat := do
  let a ← buf[off]?
  let b ← buf[off + 1]?
  let c ← buf[off + 2]?
  let d ← buf[off + 3]?
  pure (fromBytes false [a ^^^ key, b ^^^ key, c ^^^ key, d ^^^ key])

/-- A PE file starts at `off` under the key. -/
def Carved (buf : List UInt8) (key : UInt8) (off : Nat) : Prop :=
  buf[off]? = some (0x4d ^^^ key) ∧ buf[off + 1]? = some (0x5a ^^^ key) ∧
    ∃ newoff ∈ keyedU32 buf key (off + 0x3c), newoff ≤ maxOffsetPeAfterMz ∧
      buf[off + newoff]? = some (0x50 ^^^ key) ∧ buf[off + newoff + 1]? = some (0x45 ^^^ key)

instance (buf : List UInt8) (key : UInt8) : DecidablePred (Carved buf key) := fun _ =>
  inferInstanceAs (Decidable (_ ∧ _ ∧ _))

/-- The scan for one key. -/
def scanKey (buf : List UInt8) (offset : Nat) (key : UInt8) : List (Nat × UInt8) :=
  ((List.range buf.length).filter fun off => offset ≤ off ∧ Carved buf key off).map fun off =>
    (off, key)

/-- The 256 keys, the largest first. -/
def keysDescending : List UInt8 := (List.range 256).reverse.map UInt8.ofNat

/-- One scan for each key. -/
def scanAll (buf : List UInt8) (offset : Nat) : List (Nat × UInt8) :=
  keysDescending.flatMap (scanKey buf offset)

/-! ## Reads -/

theorem getAt_eq_some {buf : List UInt8} {off n : Nat} {bytes : List UInt8} :
    getAt buf off n = some bytes ↔
      off + n ≤ buf.length ∧ bytes = (buf.drop off).take n := by
  by_cases hoff : off ≤ buf.length
  · by_cases hn : n ≤ buf.length - off
    · have hsum : off + n ≤ buf.length := by omega
      have htail : (buf.drop off).take (buf.length - off) = buf.drop off :=
        List.take_of_length_le (by simp)
      simp [getAt, ElfOs.get, hoff, hn, hsum, htail, eq_comm]
    · have hsum : ¬ off + n ≤ buf.length := by omega
      simp [getAt, ElfOs.get, hoff, hn, hsum]
  · have hsum : ¬ off + n ≤ buf.length := by omega
    simp [getAt, ElfOs.get, hoff, hsum]

theorem getAt_two {buf : List UInt8} {off : Nat} {x y : UInt8} :
    getAt buf off 2 = some [x, y] ↔ buf[off]? = some x ∧ buf[off + 1]? = some y := by
  rw [getAt_eq_some]
  constructor
  · intro ⟨hlen, hbytes⟩
    have hx := congrArg (·[0]?) hbytes
    have hy := congrArg (·[1]?) hbytes
    simp at hx hy
    exact ⟨hx.symm, hy.symm⟩
  · intro ⟨hx, hy⟩
    obtain ⟨hlt, hy'⟩ := List.getElem?_eq_some_iff.mp hy
    obtain ⟨hlt', hx'⟩ := List.getElem?_eq_some_iff.mp hx
    refine ⟨by omega, ?_⟩
    rw [List.drop_eq_getElem_cons hlt', List.drop_eq_getElem_cons hlt]
    simp [hx', hy']

theorem getAt_four {buf : List UInt8} {off : Nat} {a b c d : UInt8} :
    getAt buf off 4 = some [a, b, c, d] ↔ buf[off]? = some a ∧ buf[off + 1]? = some b ∧
      buf[off + 2]? = some c ∧ buf[off + 3]? = some d := by
  rw [getAt_eq_some]
  constructor
  · intro ⟨hlen, hbytes⟩
    have ha := congrArg (·[0]?) hbytes
    have hb := congrArg (·[1]?) hbytes
    have hc := congrArg (·[2]?) hbytes
    have hd := congrArg (·[3]?) hbytes
    simp at ha hb hc hd
    exact ⟨ha.symm, hb.symm, hc.symm, hd.symm⟩
  · intro ⟨ha, hb, hc, hd⟩
    obtain ⟨hlt, ha'⟩ := List.getElem?_eq_some_iff.mp ha
    obtain ⟨hlt1, hb'⟩ := List.getElem?_eq_some_iff.mp hb
    obtain ⟨hlt2, hc'⟩ := List.getElem?_eq_some_iff.mp hc
    obtain ⟨hlt3, hd'⟩ := List.getElem?_eq_some_iff.mp hd
    refine ⟨by omega, ?_⟩
    rw [List.drop_eq_getElem_cons hlt, List.drop_eq_getElem_cons hlt1,
      List.drop_eq_getElem_cons hlt2, List.drop_eq_getElem_cons hlt3]
    simp [ha', hb', hc', hd']

theorem mem_keyedU32 {buf : List UInt8} {key : UInt8} {off newoff : Nat} :
    newoff ∈ keyedU32 buf key off ↔ ∃ a b c d, getAt buf off 4 = some [a, b, c, d] ∧
      newoff = fromBytes false [a ^^^ key, b ^^^ key, c ^^^ key, d ^^^ key] := by
  constructor
  · intro h
    simp only [keyedU32, Option.mem_def, Option.bind_eq_bind, Option.bind_eq_some_iff,
      Option.pure_def, Option.some.injEq] at h
    obtain ⟨a, ha, b, hb, c, hc, d, hd, rfl⟩ := h
    exact ⟨a, b, c, d, getAt_four.mpr ⟨ha, hb, hc, hd⟩, rfl⟩
  · intro ⟨a, b, c, d, h, hnew⟩
    obtain ⟨ha, hb, hc, hd⟩ := getAt_four.mp h
    simp [keyedU32, ha, hb, hc, hd, hnew]

/-! ## One pair -/

theorem xor_eq_comm {x key c : UInt8} : x ^^^ key = c ↔ x = c ^^^ key := by
  constructor
  · intro h
    rw [← h, UInt8.xor_assoc, UInt8.xor_self, UInt8.xor_zero]
  · intro h
    rw [h, UInt8.xor_assoc, UInt8.xor_self, UInt8.xor_zero]

theorem first_eq_iff {first key : UInt8} : first = 0x4d ^^^ key ↔ key = first ^^^ 0x4d := by
  rw [UInt8.xor_comm 0x4d key, ← xor_eq_comm]
  exact eq_comm

/-- A pair is kept exactly when a PE file starts there under the key its first byte leaves. -/
theorem carveAt_eq_some {buf : List UInt8} (hbuf : buf.length ≤ isizeMax) {offset relative : Nat}
    {first second : UInt8} (hfirst : buf[offset + relative]? = some first)
    (hsecond : buf[offset + relative + 1]? = some second) {x : Nat × UInt8} :
    carveAt buf offset relative first second = some x ↔
      x.1 = offset + relative ∧ Carved buf x.2 x.1 := by
  obtain ⟨hlt, -⟩ := List.getElem?_eq_some_iff.mp hsecond
  have hmax : isizeMax = 2 ^ 63 - 1 := rfl
  have hadd : ∀ n ≤ maxOffsetPeAfterMz, checkedAdd (offset + relative) n =
      some (offset + relative + n) := by
    intro n hn
    have : maxOffsetPeAfterMz = 0x200 := rfl
    rw [checkedAdd, if_pos (by omega)]
  constructor
  · intro h
    simp only [carveAt] at h
    split at h
    · cases h
    · rename_i hz
      rw [hadd 0x3c (by decide), Option.bind_some] at h
      split at h
      · rename_i a b c d hraw
        split at h
        · cases h
        · rename_i hnew
          rw [hadd _ (Nat.le_of_not_lt hnew), Option.bind_some] at h
          split at h
          · rename_i hpe
            cases h
            obtain ⟨hp, he⟩ := getAt_two.mp hpe
            have hm : first = 0x4d ^^^ (first ^^^ 0x4d) := first_eq_iff.mpr rfl
            refine ⟨rfl, hfirst.trans (congrArg some hm), ?_, _,
              mem_keyedU32.mpr ⟨a, b, c, d, hraw, rfl⟩, Nat.le_of_not_lt hnew, hp, he⟩
            · rw [hsecond, xor_eq_comm.mp (not_not.mp hz)]
          · cases h
      · cases h
  · obtain ⟨off, key⟩ := x
    rintro ⟨rfl, hm, hz, newoff, hnew, hle, hp, he⟩
    have hkey : key = first ^^^ 0x4d :=
      first_eq_iff.mp (Option.some.inj (hfirst.symm.trans hm))
    have hsec : second ^^^ (first ^^^ 0x4d) = 0x5a := by
      rw [← hkey]
      exact xor_eq_comm.mpr (Option.some.inj (hsecond.symm.trans hz))
    obtain ⟨a, b, c, d, hraw, rfl⟩ := mem_keyedU32.mp hnew
    simp only [carveAt]
    rw [if_neg (not_not.mpr hsec), hadd 0x3c (by decide), Option.bind_some, hraw]
    simp only
    rw [← hkey, if_neg (Nat.not_lt.mpr hle), hadd _ hle, Option.bind_some,
      if_pos (getAt_two.mpr ⟨hp, he⟩)]

/-! ## The pass -/

theorem getElem?_windows2 {tail : List UInt8} {i : Nat} {p : UInt8 × UInt8} :
    (windows2 tail)[i]? = some p ↔ tail[i]? = some p.1 ∧ tail[i + 1]? = some p.2 := by
  rw [windows2, List.getElem?_zip_eq_some]
  simp

theorem mem_candidates {buf : List UInt8} (hbuf : buf.length ≤ isizeMax) {offset : Nat}
    {x : Nat × UInt8} :
    x ∈ candidates buf offset ↔ offset ≤ x.1 ∧ Carved buf x.2 x.1 := by
  by_cases hoff : offset ≤ buf.length
  · have htail : get buf offset buf.length = some (buf.drop offset) := by
      simp [ElfOs.get, hoff, List.take_of_length_le]
    have hat : ∀ i, (buf.drop offset)[i]? = buf[offset + i]? := fun i => List.getElem?_drop
    simp only [candidates, htail, List.mem_filterMap]
    constructor
    · intro h
      obtain ⟨⟨p, i⟩, hmem, hcarve⟩ := h
      obtain ⟨hfirst, hsecond⟩ := getElem?_windows2.mp (List.mem_zipIdx_iff_getElem?.mp hmem)
      rw [hat] at hfirst hsecond
      obtain ⟨hx, hcarved⟩ := (carveAt_eq_some hbuf hfirst hsecond).mp hcarve
      exact ⟨by omega, hcarved⟩
    · intro h
      obtain ⟨hle, hcarved⟩ := h
      obtain ⟨i, hi⟩ := Nat.exists_eq_add_of_le hle
      have hfirst : buf[offset + i]? = some (0x4d ^^^ x.2) := hi ▸ hcarved.1
      have hsecond : buf[offset + i + 1]? = some (0x5a ^^^ x.2) := hi ▸ hcarved.2.1
      refine ⟨((0x4d ^^^ x.2, 0x5a ^^^ x.2), i), ?_, ?_⟩
      · apply List.mem_zipIdx_iff_getElem?.mpr
        apply getElem?_windows2.mpr
        rw [hat, hat]
        exact ⟨hfirst, hsecond⟩
      · exact (carveAt_eq_some hbuf hfirst hsecond).mpr ⟨hi, hcarved⟩
  · have hnone : get buf offset buf.length = none := by simp [ElfOs.get, hoff]
    simp only [candidates, hnone, List.not_mem_nil, false_iff, not_and]
    intro hle hcarved
    obtain ⟨hlt, -⟩ := List.getElem?_eq_some_iff.mp hcarved.1
    omega

theorem carveAt_fst {buf : List UInt8} {offset relative : Nat} {first second : UInt8}
    {x : Nat × UInt8} (h : carveAt buf offset relative first second = some x) :
    x.1 = offset + relative := by
  simp only [carveAt] at h
  split at h
  · cases h
  · obtain ⟨_, _, h⟩ := Option.bind_eq_some_iff.mp h
    split at h
    · split at h
      · cases h
      · obtain ⟨_, _, h⟩ := Option.bind_eq_some_iff.mp h
        split at h
        · cases h
          rfl
        · cases h
    · cases h

/-- The pass meets the offsets in ascending order. -/
theorem pairwise_candidates (buf : List UInt8) (offset : Nat) :
    (candidates buf offset).Pairwise fun x y => x.1 < y.1 := by
  rw [candidates]
  split
  · exact List.Pairwise.nil
  · rename_i tail _
    apply List.Pairwise.filterMap _ (R := fun p q => p.2 < q.2)
    · intro p q hlt x hx y hy
      have hx' := carveAt_fst hx
      have hy' := carveAt_fst hy
      omega
    · have hsnd := List.pairwise_lt_range' (s := 0) (n := (windows2 tail).length)
      rw [← List.zipIdx_map_snd] at hsnd
      exact List.pairwise_map.mp hsnd

/-! ## The order -/

theorem carveOrder_trans {x y z : Nat × UInt8} (hxy : carveOrder x y) (hyz : carveOrder y z) :
    carveOrder x z := by
  simp only [carveOrder, UInt8.lt_iff_toNat_lt, ← UInt8.toNat_inj] at *
  omega

theorem carveOrder_total (x y : Nat × UInt8) : carveOrder x y ∨ carveOrder y x := by
  simp only [carveOrder, UInt8.lt_iff_toNat_lt, ← UInt8.toNat_inj]
  omega

instance : IsTrans (Nat × UInt8) carveOrder := ⟨fun _ _ _ => carveOrder_trans⟩

instance : Std.Total carveOrder := ⟨carveOrder_total⟩

theorem carveOrder_antisymm {x y : Nat × UInt8} (hxy : carveOrder x y) (hyx : carveOrder y x) :
    x = y := by
  apply Prod.ext
  · simp only [carveOrder, UInt8.lt_iff_toNat_lt, ← UInt8.toNat_inj] at *
    omega
  · simp only [carveOrder, UInt8.lt_iff_toNat_lt, ← UInt8.toNat_inj] at *
    omega

/-- Descending key, then ascending offset. -/
def Before (x y : Nat × UInt8) : Prop := y.2 < x.2 ∨ (x.2 = y.2 ∧ x.1 < y.1)

theorem before_iff {x y : Nat × UInt8} : Before x y ↔ carveOrder x y ∧ x ≠ y := by
  rw [Ne, Prod.ext_iff]
  simp only [Before, carveOrder, UInt8.lt_iff_toNat_lt, ← UInt8.toNat_inj]
  omega

theorem pairwise_before {l : List (Nat × UInt8)} (horder : l.Pairwise carveOrder)
    (hnodup : l.Nodup) : l.Pairwise Before :=
  (horder.and hnodup).imp fun h => before_iff.mpr h

/-- Lists in the order with the same members are the same list. -/
theorem eq_of_before {l l' : List (Nat × UInt8)} (hl : l.Pairwise Before)
    (hl' : l'.Pairwise Before) (hmem : ∀ x, x ∈ l ↔ x ∈ l') : l = l' := by
  have hnodup : ∀ {l : List (Nat × UInt8)}, l.Pairwise Before → l.Nodup :=
    fun h => h.imp fun hxy => (before_iff.mp hxy).2
  have hperm := (List.perm_ext_iff_of_nodup (hnodup hl) (hnodup hl')).mpr hmem
  apply List.Perm.eq_of_pairwise _ (hl.imp fun h => (before_iff.mp h).1)
    (hl'.imp fun h => (before_iff.mp h).1) hperm
  exact fun _ _ _ _ => carveOrder_antisymm

/-! ## The scans -/

theorem mem_scanKey {buf : List UInt8} {offset : Nat} {key : UInt8} {x : Nat × UInt8} :
    x ∈ scanKey buf offset key ↔ x.2 = key ∧ offset ≤ x.1 ∧ Carved buf x.2 x.1 := by
  simp only [scanKey, List.mem_map, List.mem_filter, List.mem_range, decide_eq_true_eq]
  constructor
  · rintro ⟨off, ⟨-, hle, hcarved⟩, rfl⟩
    exact ⟨rfl, hle, hcarved⟩
  · rintro ⟨rfl, hle, hcarved⟩
    obtain ⟨hlt, -⟩ := List.getElem?_eq_some_iff.mp hcarved.1
    exact ⟨x.1, ⟨hlt, hle, hcarved⟩, rfl⟩

theorem mem_keysDescending (key : UInt8) : key ∈ keysDescending := by
  rw [keysDescending, List.mem_map]
  refine ⟨key.toNat, ?_, UInt8.ofNat_toNat⟩
  rw [List.mem_reverse, List.mem_range]
  exact UInt8.toNat_lt key

theorem mem_scanAll {buf : List UInt8} {offset : Nat} {x : Nat × UInt8} :
    x ∈ scanAll buf offset ↔ offset ≤ x.1 ∧ Carved buf x.2 x.1 := by
  simp only [scanAll, List.mem_flatMap, mem_scanKey]
  constructor
  · rintro ⟨key, -, -, h⟩
    exact h
  · intro h
    exact ⟨x.2, mem_keysDescending x.2, rfl, h⟩

theorem pairwise_keysDescending : keysDescending.Pairwise fun k k' => k' < k := by
  rw [keysDescending, List.pairwise_map, List.pairwise_reverse]
  have hrange : (List.range 256).Pairwise (· < ·) := List.pairwise_lt_range
  apply hrange.imp_of_mem
  intro m n hm hn hlt
  rw [List.mem_range] at hm hn
  rw [UInt8.lt_iff_toNat_lt, UInt8.toNat_ofNat', UInt8.toNat_ofNat']
  omega

theorem pairwise_scanAll (buf : List UInt8) (offset : Nat) :
    (scanAll buf offset).Pairwise Before := by
  rw [scanAll, List.pairwise_flatMap]
  constructor
  · intro key _
    rw [scanKey, List.pairwise_map]
    apply (List.pairwise_lt_range (n := buf.length)).filter _ |>.imp
    intro off off' hlt
    exact Or.inr ⟨rfl, hlt⟩
  · apply pairwise_keysDescending.imp
    intro key key' hlt x hx y hy
    rw [mem_scanKey] at hx hy
    exact Or.inl (by rw [hx.1, hy.1]; exact hlt)

/-! ## The result -/

theorem mem_carvePe (buf : ByteBuf) {offset : Nat} {x : Nat × UInt8} :
    x ∈ carvePe buf offset ↔ offset ≤ x.1 ∧ Carved buf.bytes x.2 x.1 := by
  rw [carvePe, List.mem_insertionSort, mem_candidates buf.bounded]

theorem pairwise_carvePe (buf : ByteBuf) (offset : Nat) :
    (carvePe buf offset).Pairwise Before := by
  apply pairwise_before (List.pairwise_insertionSort carveOrder _)
  apply (List.perm_insertionSort carveOrder _).nodup_iff.mpr
  apply (pairwise_candidates buf.bytes offset).imp
  intro x y hlt heq
  rw [heq] at hlt
  omega

/-- The pass returns every PE file of the buffer from the offset on, once each, keys descending and
    offsets ascending: what 256 scans, one for each key, return. -/
theorem carvePe_eq_scans (buf : ByteBuf) (offset : Nat) :
    (∀ off key, (off, key) ∈ carvePe buf offset ↔ offset ≤ off ∧ Carved buf.bytes key off) ∧
      (carvePe buf offset).Pairwise Before ∧
      carvePe buf offset = scanAll buf.bytes offset := by
  refine ⟨fun off key => mem_carvePe buf, pairwise_carvePe buf offset, ?_⟩
  apply eq_of_before (pairwise_carvePe buf offset) (pairwise_scanAll buf.bytes offset)
  intro x
  rw [mem_carvePe, mem_scanAll]

end CapaX.Extract
