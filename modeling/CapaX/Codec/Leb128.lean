import Mathlib.Data.Nat.Bitwise
import Mathlib.Tactic.Ring

/-
  Unsigned LEB128: seven bits a byte, lowest first, with the high bit set on every byte but the
  last. `encode` is the canonical encoding, the shortest one. The other lemmas are what a decoder
  goes by: the payload of a byte, its high bit, and a payload put above the bits that are there.
-/

namespace Codec.Leb128

def encode (n : Nat) : List UInt8 :=
  if n < 128 then [UInt8.ofNat n] else UInt8.ofNat (n % 128 + 128) :: encode (n / 128)
termination_by n

theorem encode_of_lt {n : Nat} (h : n < 128) : encode n = [UInt8.ofNat n] := by
  rw [encode, if_pos h]

theorem encode_of_le {n : Nat} (h : 128 ≤ n) :
    encode n = UInt8.ofNat (n % 128 + 128) :: encode (n / 128) := by
  rw [encode, if_neg (by omega)]

theorem length_encode_pos (n : Nat) : 0 < (encode n).length := by
  rw [encode]
  split <;> simp

theorem toNat_ofNat_byte {n : Nat} (h : n < 256) : (UInt8.ofNat n).toNat = n := by
  rw [UInt8.toNat_ofNat']
  omega

/-- The seven low bits of a byte. -/
theorem payload_toNat (b : UInt8) : (b &&& 0x7f).toNat = b.toNat % 128 := by
  rw [UInt8.toNat_and]
  exact Nat.and_two_pow_sub_one_eq_mod b.toNat 7

/-- The high bit of a byte. -/
theorem and_high_eq_zero_iff (b : UInt8) : b &&& 0x80 = 0 ↔ b.toNat < 128 := by
  have hlt : b.toNat < 256 := b.toNat_lt
  have hand : (b &&& 0x80).toNat = (b.toNat.testBit 7).toNat * 128 := by
    rw [UInt8.toNat_and]
    exact Nat.and_two_pow b.toNat 7
  have hbit : b.toNat.testBit 7 = decide (b.toNat / 128 % 2 = 1) := Nat.testBit_eq_decide_div_mod_eq
  rw [← UInt8.toNat_inj, hand, hbit]
  by_cases h : b.toNat / 128 % 2 = 1
  · simp [h]
    omega
  · simp [h]
    omega

/-- A payload goes above the bits gathered so far. -/
theorem or_shiftLeft_toNat {acc payload : UInt64} {shift : Nat} (hacc : acc.toNat < 2 ^ shift)
    (hshift : shift < 64) (hfit : payload.toNat * 2 ^ shift < 2 ^ 64) :
    (acc ||| (payload <<< UInt64.ofNat shift)).toNat = acc.toNat + payload.toNat * 2 ^ shift := by
  have hamount : (UInt64.ofNat shift).toNat % 64 = shift := by
    rw [UInt64.toNat_ofNat']
    omega
  rw [UInt64.toNat_or, UInt64.toNat_shiftLeft, hamount, Nat.shiftLeft_eq, Nat.mod_eq_of_lt hfit,
    Nat.or_comm, Nat.mul_comm, ← Nat.two_pow_add_eq_or_of_lt hacc, Nat.add_comm]

/-- What is left of a number once seven of its bits are gathered. -/
theorem gathered (value n shift : Nat) :
    value + n % 128 * 2 ^ shift + n / 128 * 2 ^ (shift + 7) = value + n * 2 ^ shift := by
  have hsplit : n % 128 + 128 * (n / 128) = n := Nat.mod_add_div n 128
  have hpow : 2 ^ (shift + 7) = 128 * 2 ^ shift := by rw [Nat.pow_add, Nat.mul_comm]
  calc value + n % 128 * 2 ^ shift + n / 128 * 2 ^ (shift + 7)
      = value + (n % 128 + 128 * (n / 128)) * 2 ^ shift := by rw [hpow]; ring
    _ = value + n * 2 ^ shift := by rw [hsplit]

end Codec.Leb128
