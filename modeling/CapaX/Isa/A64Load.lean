import CapaX.Isa.A64
import Mathlib.Tactic.IntervalCases

/-
  The A64 words that are written LDR: what they load, from where, and what they leave in the base
  register. The encodings differ in the addressing mode (literal, unsigned offset, post- and
  pre-indexed, register offset) and in the kind of register that is loaded.
-/

namespace A64

inductive Addressing
  | literal (offset : BitVec 64)
  | unsignedOffset (imm : BitVec 64)
  | postIndexed (imm : BitVec 64)
  | preIndexed (imm : BitVec 64)
  | registerOffset (rm : Reg) (option : BitVec 3) (shift : Nat)
  deriving DecidableEq

/-- What a mode adds to the base register. -/
def Addressing.writeBack : Addressing → BitVec 64
  | .postIndexed imm => imm
  | .preIndexed imm => imm
  | .literal _ | .unsignedOffset _ | .registerOffset _ _ _ => 0

/-- A load of `2 ^ size` bytes into a general register or, if `simd`, into a vector register. -/
structure Load where
  simd : Bool
  size : Nat
  mode : Addressing
  rn : Reg
  rt : Reg
  deriving DecidableEq

/-- The size of a load with a base register, where the fields say LDR: `opc` tells LDR from the
    stores and the loads that extend a sign. -/
def loadSize (simd : Bool) (size opc : BitVec 2) : Option Nat :=
  if simd then
    if opc = 0b01#2 then some size.toNat
    else if opc = 0b11#2 ∧ size = 0b00#2 then some 4
    else none
  else if opc = 0b01#2 ∧ 2 ≤ size.toNat then some size.toNat
  else none

/-- The addressing mode of a load with a base register. -/
def baseMode (w : Word) (size : Nat) : Option Addressing :=
  if bits w 24 2 = 0b01#2 then some (.unsignedOffset ((bits w 10 12).setWidth 64 <<< size))
  else if bits w 24 2 = 0b00#2 then
    if bits w 21 1 = 0b1#1 then
      if bits w 10 2 = 0b10#2 ∧ w.getLsbD 14 = true then
        some (.registerOffset (bits w 16 5) (bits w 13 3) (if w.getLsbD 12 then size else 0))
      else none
    else if bits w 10 2 = 0b01#2 then some (.postIndexed ((bits w 12 9).signExtend 64))
    else if bits w 10 2 = 0b11#2 then some (.preIndexed ((bits w 12 9).signExtend 64))
    else none
  else none

/-- The loads a word can be. -/
def decodeLdr (w : Word) : Option Load :=
  let simd := w.getLsbD 26
  if bits w 27 3 = 0b111#3 then
    (loadSize simd (bits w 30 2) (bits w 22 2)).bind fun size =>
      (baseMode w size).map fun mode => ⟨simd, size, mode, bits w 5 5, bits w 0 5⟩
  else if bits w 27 3 = 0b011#3 ∧ bits w 24 2 = 0b00#2 ∧
      (bits w 30 2).toNat < (if simd then 3 else 2) then
    some ⟨simd, (bits w 30 2).toNat + 2, .literal ((bits w 5 19 ++ 0#2).signExtend 64), bits w 5 5,
      bits w 0 5⟩
  else none

/-- The modes that are decoded, with the fields they are read from. -/
theorem baseMode_cases {w : Word} {size : Nat} {mode : Addressing}
    (h : baseMode w size = some mode) :
    (bits w 24 2 = 0b01#2 ∧ mode = .unsignedOffset ((bits w 10 12).setWidth 64 <<< size)) ∨
      mode = .postIndexed ((bits w 12 9).signExtend 64) ∨
      mode = .preIndexed ((bits w 12 9).signExtend 64) ∨
      ∃ rm option shift, mode = .registerOffset rm option shift := by
  unfold baseMode at h
  split at h
  · rename_i hunsigned
    exact Or.inl ⟨hunsigned, (Option.some.inj h).symm⟩
  · split at h
    · split at h
      · split at h
        · exact Or.inr (Or.inr (Or.inr ⟨_, _, _, (Option.some.inj h).symm⟩))
        · cases h
      · split at h
        · exact Or.inr (Or.inl (Option.some.inj h).symm)
        · split at h
          · exact Or.inr (Or.inr (Or.inl (Option.some.inj h).symm))
          · cases h
    · cases h

/-- A load has a base, or it is a literal. -/
theorem decodeLdr_cases {w : Word} {l : Load} (h : decodeLdr w = some l) :
    (bits w 27 3 = 0b111#3 ∧ ∃ size mode,
        loadSize (w.getLsbD 26) (bits w 30 2) (bits w 22 2) = some size ∧
        baseMode w size = some mode ∧ l = ⟨w.getLsbD 26, size, mode, bits w 5 5, bits w 0 5⟩) ∨
      (bits w 27 3 = 0b011#3 ∧ ∃ offset, l.mode = .literal offset) := by
  unfold decodeLdr at h
  dsimp only at h
  split at h
  · rename_i hclass
    obtain ⟨size, hsize, h⟩ := Option.bind_eq_some_iff.mp h
    obtain ⟨mode, hmode, h⟩ := Option.map_eq_some_iff.mp h
    exact Or.inl ⟨hclass, size, mode, hsize, hmode, h.symm⟩
  · generalize (if w.getLsbD 26 = true then 3 else 2) = bound at h
    split at h
    · rename_i hliteral
      obtain rfl := Option.some.inj h
      exact Or.inr ⟨hliteral.1, _, rfl⟩
    · cases h

namespace Load

/-- The address a load at `pc` reads. A post-indexed one reads at the base. -/
def address (l : Load) (pc : BitVec 64) (s : State) : BitVec 64 :=
  match l.mode with
  | .literal offset => pc + offset
  | .unsignedOffset imm => s.reg l.rn + imm
  | .postIndexed _ => s.reg l.rn
  | .preIndexed imm => s.reg l.rn + imm
  | .registerOffset rm option shift => s.reg l.rn + extendReg (s.readZ rm) option <<< shift

def bytes (l : Load) : Nat := 2 ^ l.size

/-- The base is written back, then the value that was loaded. When both go to one register the
    manual leaves its value open, and so does a loaded value that is any. -/
def exec (l : Load) (value : BitVec 64) (s : State) : State :=
  let s' := match l.mode with
    | .postIndexed imm => s.write l.rn (s.reg l.rn + imm)
    | .preIndexed imm => s.write l.rn (s.reg l.rn + imm)
    | _ => s
  if l.simd then s' else s'.writeZ l.rt value

end Load

/-! ## The unsigned offset of a general register of 64 bits -/

/-- The words of LDR Xt, [Xn, #imm]. -/
def IsLdrUnsigned (w : Word) : Prop := w &&& 0xffc00000#32 = 0xf9400000#32

instance : DecidablePred IsLdrUnsigned := fun _ => inferInstanceAs (Decidable (_ = _))

theorem decodeLdr_unsigned {w : Word} (h : IsLdrUnsigned w) :
    decodeLdr w = some ⟨false, 3, .unsignedOffset ((bits w 10 12).setWidth 64 <<< 3), bits w 5 5,
      bits w 0 5⟩ := by
  have hclass : bits w 27 3 = 0b111#3 := bits_of_mask h (by decide)
  have hsimd : w.getLsbD 26 = false := getLsbD_of_mask h (by decide)
  have hsize : bits w 30 2 = 0b11#2 := bits_of_mask h (by decide)
  have hopc : bits w 22 2 = 0b01#2 := bits_of_mask h (by decide)
  have hmode : bits w 24 2 = 0b01#2 := bits_of_mask h (by decide)
  rw [decodeLdr, if_pos hclass, hsimd, hsize, hopc]
  show (baseMode w 3).map _ = _
  rw [baseMode, if_pos hmode]
  rfl

theorem getLsbD_of_bits {w : Word} {lo len : Nat} {value : BitVec len}
    (h : bits w lo len = value) {i : Nat} (hi : i < len) :
    w.getLsbD (lo + i) = value.getLsbD i := by
  rw [← h, BitVec.getLsbD_extractLsb', decide_eq_true hi, Bool.true_and]

theorem loadSize_wide {size opc : BitVec 2} (h : loadSize false size opc = some 3) :
    size = 0b11#2 ∧ opc = 0b01#2 := by
  have hall : ∀ size opc : BitVec 2, loadSize false size opc = some 3 →
      size = 0b11#2 ∧ opc = 0b01#2 := by decide
  exact hall size opc h

/-- No other word is such a load. -/
theorem isLdrUnsigned_of_decodeLdr {w : Word} {imm : BitVec 64} {rn rt : Reg}
    (h : decodeLdr w = some ⟨false, 3, .unsignedOffset imm, rn, rt⟩) : IsLdrUnsigned w := by
  obtain ⟨hclass, size, mode, hsize, hmode, h⟩ | ⟨-, offset, hliteral⟩ := decodeLdr_cases h
  · injection h with hsimd h3 hunsigned
    subst h3 hunsigned
    rw [← hsimd] at hsize
    obtain ⟨hwide, hopc⟩ := loadSize_wide hsize
    obtain ⟨hkind, -⟩ | h | h | ⟨rm, option, shift, h⟩ := baseMode_cases hmode
    · have hword : ∀ i < 32, 22 ≤ i → w.getLsbD i = (0xf9400000#32).getLsbD i := by
        intro i hi hge
        interval_cases i
        · exact getLsbD_of_bits hopc (i := 0) (by decide)
        · exact getLsbD_of_bits hopc (i := 1) (by decide)
        · exact getLsbD_of_bits hkind (i := 0) (by decide)
        · exact getLsbD_of_bits hkind (i := 1) (by decide)
        · exact hsimd.symm
        · exact getLsbD_of_bits hclass (i := 0) (by decide)
        · exact getLsbD_of_bits hclass (i := 1) (by decide)
        · exact getLsbD_of_bits hclass (i := 2) (by decide)
        · exact getLsbD_of_bits hwide (i := 0) (by decide)
        · exact getLsbD_of_bits hwide (i := 1) (by decide)
      apply BitVec.eq_of_getLsbD_eq
      intro i hi
      rw [BitVec.getLsbD_and]
      by_cases hge : 22 ≤ i
      · have hmask : ∀ i < 32, 22 ≤ i → (0xffc00000#32).getLsbD i = true := by decide
        rw [hmask i hi hge, Bool.and_true, hword i hi hge]
      · have hmask : ∀ i < 22, (0xffc00000#32).getLsbD i = false ∧
            (0xf9400000#32).getLsbD i = false := by decide
        rw [(hmask i (by omega)).1, (hmask i (by omega)).2, Bool.and_false]
    · cases h
    · cases h
    · cases h
  · cases hliteral

end A64
