import Mathlib.Data.List.Basic
import Mathlib.Data.List.Infix
import Mathlib.Tactic.Ring

/-
  Numbers as bytes of a fixed width, least or most significant byte first, and tables that stand
  in a buffer: `bytes <+: buf.drop off` says that the bytes stand at the offset. A table of entries
  of one width has its `i`-th entry at `i` times the width (`prefix_flatMap`).
-/

namespace Codec.Words

/-! ## Numbers -/

def ofLe (bytes : List UInt8) : Nat := bytes.foldr (fun byte value => byte.toNat + 256 * value) 0

def ofBe (bytes : List UInt8) : Nat := bytes.foldl (fun value byte => value * 256 + byte.toNat) 0

def toLe : Nat → Nat → List UInt8
  | 0, _ => []
  | width + 1, n => UInt8.ofNat (n % 256) :: toLe width (n / 256)

def toBe (width n : Nat) : List UInt8 := (toLe width n).reverse

@[simp] theorem length_toLe (width n : Nat) : (toLe width n).length = width := by
  induction width generalizing n with
  | zero => rfl
  | succ width ih => simp [toLe, ih]

@[simp] theorem length_toBe (width n : Nat) : (toBe width n).length = width := by
  rw [toBe, List.length_reverse, length_toLe]

theorem ofLe_toLe {width n : Nat} (h : n < 256 ^ width) : ofLe (toLe width n) = n := by
  induction width generalizing n with
  | zero => exact (Nat.lt_one_iff.mp h).symm
  | succ width ih =>
    have hdiv : n / 256 < 256 ^ width := by
      apply Nat.div_lt_of_lt_mul
      rwa [Nat.mul_comm, ← Nat.pow_succ]
    have hbyte : (UInt8.ofNat (n % 256)).toNat = n % 256 := by
      rw [UInt8.toNat_ofNat']
      omega
    show (UInt8.ofNat (n % 256)).toNat + 256 * ofLe (toLe width (n / 256)) = n
    rw [ih hdiv, hbyte]
    omega

theorem ofLe_lt (bytes : List UInt8) : ofLe bytes < 256 ^ bytes.length := by
  induction bytes with
  | nil => exact Nat.one_pos
  | cons byte bytes ih =>
    have hbyte := byte.toNat_lt
    show byte.toNat + 256 * ofLe bytes < 256 ^ (bytes.length + 1)
    rw [Nat.pow_succ]
    omega

theorem toLe_ofLe (bytes : List UInt8) : toLe bytes.length (ofLe bytes) = bytes := by
  induction bytes with
  | nil => rfl
  | cons byte bytes ih =>
    have hbyte := byte.toNat_lt
    have hmod : (byte.toNat + 256 * ofLe bytes) % 256 = byte.toNat := by omega
    have hdiv : (byte.toNat + 256 * ofLe bytes) / 256 = ofLe bytes := by omega
    show UInt8.ofNat ((byte.toNat + 256 * ofLe bytes) % 256) ::
      toLe bytes.length ((byte.toNat + 256 * ofLe bytes) / 256) = byte :: bytes
    rw [hmod, hdiv, ih, UInt8.ofNat_toNat]

/-- Either order reads the other one backwards. -/
theorem ofBe_reverse (bytes : List UInt8) : ofBe bytes.reverse = ofLe bytes := by
  rw [ofBe, List.foldl_reverse, ofLe]
  congr 1
  funext byte value
  ring

theorem ofBe_toBe {width n : Nat} (h : n < 256 ^ width) : ofBe (toBe width n) = n := by
  rw [toBe, ofBe_reverse, ofLe_toLe h]

/-! ## Tables -/

section

variable {α β : Type} {buf : List β} {off : Nat}

theorem prefix_append {a b : List β} (h : (a ++ b) <+: buf.drop off) :
    a <+: buf.drop off ∧ b <+: buf.drop (off + a.length) := by
  obtain ⟨rest, hrest⟩ := h
  refine ⟨⟨b ++ rest, by rw [← hrest, List.append_assoc]⟩, ⟨rest, ?_⟩⟩
  rw [← List.drop_drop, ← hrest, List.append_assoc, List.drop_left]

/-- The entry of a table of entries of one width. -/
theorem prefix_flatMap {entries : List α} {f : α → List β} {width : Nat}
    (hwidth : ∀ e, (f e).length = width) (h : entries.flatMap f <+: buf.drop off) {i : Nat} {e : α}
    (he : entries[i]? = some e) : f e <+: buf.drop (off + width * i) := by
  induction entries generalizing off i with
  | nil => cases he
  | cons entry entries ih =>
    rw [List.flatMap_cons] at h
    obtain ⟨hfirst, hrest⟩ := prefix_append h
    cases i with
    | zero =>
      obtain rfl := Option.some.inj he
      exact hfirst
    | succ i =>
      rw [hwidth] at hrest
      have hnext := ih hrest he
      rwa [Nat.add_assoc, Nat.add_comm width, ← Nat.mul_succ] at hnext

theorem length_flatMap_width {entries : List α} {f : α → List β} {width : Nat}
    (hwidth : ∀ e, (f e).length = width) : (entries.flatMap f).length = width * entries.length := by
  induction entries with
  | nil => rfl
  | cons entry entries ih =>
    rw [List.flatMap_cons, List.length_append, hwidth, ih, List.length_cons, Nat.mul_succ,
      Nat.add_comm]

/-- Bytes that stand at an offset leave room behind it. -/
theorem length_standing {bytes : List β} (h : bytes <+: buf.drop off) :
    bytes.length ≤ buf.length - off := by
  have hle := h.length_le
  rwa [List.length_drop] at hle

/-- What stands in bytes that stand at an offset. -/
theorem prefix_drop_trans {bytes part : List β} (h : bytes <+: buf.drop off) {k : Nat}
    (hk : k ≤ bytes.length) (hpart : part <+: bytes.drop k) : part <+: buf.drop (off + k) := by
  obtain ⟨rest, hrest⟩ := h
  rw [← List.drop_drop, ← hrest, List.drop_append_of_le_length hk]
  exact hpart.trans (List.prefix_append _ _)

end

end Codec.Words
