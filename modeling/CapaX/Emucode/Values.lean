import CapaX.Emucode.Agreement

/-
  Values and flags of the emulator. Values are computed in 64 bits and represent the processor's up
  to their width (`Represents`); the flags that are rebuilt from them are those of the operation
  (`rebuiltFlags_right`).
-/

namespace CapaX.Emucode

open Collections Recovery X86

/-! ## Values -/

section

variable {w v u : Nat} {a b : Option (BitVec 64)} {x : BitVec w} {y : BitVec v} {z : BitVec u}

theorem Represents.map {f : BitVec 64 → BitVec 64} (h : Represents a x)
    (hf : ∀ p, p.setWidth w = x → (f p).setWidth u = z) : Represents (a.map f) z := by
  intro p hp
  obtain ⟨q, hq, rfl⟩ := Option.map_eq_some_iff.mp hp
  exact hf q (h q hq)

theorem zip_eq_some {p q : BitVec 64} : zip a b = some (p, q) ↔ a = some p ∧ b = some q := by
  unfold zip
  cases a <;> cases b <;> simp

theorem Represents.both {f : BitVec 64 × BitVec 64 → BitVec 64} (ha : Represents a x)
    (hb : Represents b y)
    (hf : ∀ p q, p.setWidth w = x → q.setWidth v = y → (f (p, q)).setWidth u = z) :
    Represents ((zip a b).map f) z := by
  intro r hr
  obtain ⟨⟨p, q⟩, hpq, rfl⟩ := Option.map_eq_some_iff.mp hr
  obtain ⟨hp, hq⟩ := zip_eq_some.mp hpq
  exact hf p q (ha p hp) (hb q hq)

theorem represents_some {p : BitVec 64} (h : p.setWidth w = x) : Represents (some p) x := by
  intro q hq
  rw [← Option.some.inj hq, h]

theorem setWidth_sub (h : w ≤ 64) (p q : BitVec 64) :
    (p - q).setWidth w = p.setWidth w - q.setWidth w := by
  rw [BitVec.sub_eq_add_neg, BitVec.setWidth_add _ _ h, BitVec.setWidth_neg_of_le h,
    ← BitVec.sub_eq_add_neg]

/-- What a shift to the top and back gives is the sign extension of the low bits. -/
theorem shift_back (h : w ≤ 64) (p : BitVec 64) :
    (p <<< (64 - w)).sshiftRight (64 - w) = (p.setWidth w).signExtend 64 := by
  apply BitVec.eq_of_getLsbD_eq
  intro i hi
  rw [BitVec.getLsbD_sshiftRight, BitVec.getLsbD_signExtend, BitVec.msb_eq_getLsbD_last,
    BitVec.msb_eq_getLsbD_last]
  simp only [BitVec.getLsbD_shiftLeft, BitVec.getLsbD_setWidth]
  grind

theorem setWidth_signExtend (h : w ≤ 64) (x : BitVec v) :
    (x.signExtend 64).setWidth w = x.signExtend w := by
  apply BitVec.eq_of_getLsbD_eq
  intro i hi
  simp only [BitVec.getLsbD_setWidth, BitVec.getLsbD_signExtend]
  grind

theorem setWidth_sshiftRight_signExtend (h : w ≤ 64) (x : BitVec w) (n : Nat) :
    ((x.signExtend 64).sshiftRight n).setWidth w = x.sshiftRight n := by
  apply BitVec.eq_of_getLsbD_eq
  intro i hi
  have hmsb : (x.signExtend 64).msb = x.msb := by
    rw [BitVec.msb_signExtend]
    grind
  simp only [BitVec.getLsbD_setWidth, BitVec.getLsbD_sshiftRight, BitVec.getLsbD_signExtend, hmsb]
  grind

theorem setWidth_signExtend_self (r : Reg w) (x : BitVec w) :
    (x.signExtend 64).setWidth w = x := by
  rw [setWidth_signExtend (le_of_reg r), BitVec.signExtend_eq]

theorem setWidth_ushiftRight_setWidth (x : BitVec w) (h : w ≤ 64) (n : Nat) :
    ((x.setWidth 64) >>> n).setWidth w = x >>> n := by
  apply BitVec.eq_of_getLsbD_eq
  intro i hi
  have hge : w ≤ n + i → x.getLsbD (n + i) = false := fun h => BitVec.getLsbD_of_ge _ _ h
  simp only [BitVec.getLsbD_setWidth, BitVec.getLsbD_ushiftRight]
  grind

end

/-! ## Flags -/

section

variable {w size : Nat} {x y : BitVec w}

/-- The flags of a processor are found on 64 bits: the sign is at bit `w - 1`. -/
theorem signBit_ne_zero (r : Reg w) (p : BitVec 64) :
    (p &&& 1#64 <<< (w - 1) != 0) = (p.setWidth w).msb := by
  have hbits := bits_of r
  rw [← BitVec.twoPow_eq, BitVec.and_twoPow, BitVec.msb_eq_getLsbD_last, BitVec.getLsbD_setWidth,
    decide_eq_true (by omega : w - 1 < w), Bool.true_and]
  cases p.getLsbD (w - 1) with
  | false => rfl
  | true =>
    have hne : BitVec.twoPow 64 (w - 1) ≠ 0 := by
      intro h
      have hbit := congrArg (fun q : BitVec 64 => q.getLsbD (w - 1)) h
      simp at hbit
      omega
    simpa using hne

theorem setWidth_eq_zero (r : Reg w) (x : BitVec w) : (x.setWidth 64 == 0) = (x == 0) := by
  by_cases h : x = 0
  · subst h
    simp
  · have hne : x.setWidth 64 ≠ 0 := fun hx => h (by
      rw [← setWidth_setWidth_self r x, hx]
      simp)
    rw [beq_eq_false_iff_ne.mpr h, beq_eq_false_iff_ne.mpr hne]

theorem parity_setWidth (r : Reg w) (x : BitVec w) :
    (((x.setWidth 64).setWidth 8).cpop &&& 1 == 0) = parity x := by
  have hbits := bits_of r
  have hall : ∀ v : BitVec 8, (v.cpop &&& 1 == 0) = (v.cpop.toNat % 2 == 0) := by decide
  rw [BitVec.setWidth_setWidth_of_le _ (by decide), parity, hall]

theorem toNat_wide (r : Reg w) (x : BitVec w) : (x.setWidth 64).toNat = x.toNat := by
  have hpow : 2 ^ w ≤ 2 ^ 64 := Nat.pow_le_pow_right (by decide) (le_of_reg r)
  have hlt := x.isLt
  rw [BitVec.toNat_setWidth, Nat.mod_eq_of_lt (by omega)]

theorem mask_toNat (r : Reg w) (hsize : size * 8 = w) : (mask size).toNat = 2 ^ w - 1 := by
  have hmask : mask size = (BitVec.allOnes w).setWidth 64 := by
    apply BitVec.eq_of_getLsbD_eq
    intro i hi
    simp only [getLsbD_mask, BitVec.getLsbD_setWidth, BitVec.getLsbD_allOnes, hsize]
    grind
  rw [hmask, toNat_wide r, BitVec.toNat_allOnes]

theorem carry_add (r : Reg w) (hsize : size * 8 = w) (x y : BitVec w) :
    decide (mask size - x.setWidth 64 < y.setWidth 64) = x.uaddOverflow y := by
  have hx := x.isLt
  have hmask := mask_toNat r hsize
  have hle : x.setWidth 64 ≤ mask size := by
    rw [BitVec.le_def, toNat_wide r, hmask]
    omega
  unfold BitVec.uaddOverflow
  rw [decide_eq_decide, BitVec.lt_def, BitVec.toNat_sub_of_le hle, toNat_wide r, toNat_wide r,
    hmask]
  omega

theorem carry_sub (r : Reg w) (x y : BitVec w) :
    decide (x.setWidth 64 < y.setWidth 64) = x.usubOverflow y := by
  unfold BitVec.usubOverflow
  rw [decide_eq_decide, BitVec.lt_def, toNat_wide r, toNat_wide r]

/-- The flags that are built from a result on 64 bits. -/
theorem valueFlags_wide (r : Reg w) (hsize : size * 8 = w) (value : BitVec w)
    (carry overflow : Bool) :
    ({ zero := value.setWidth 64 == 0, sign := value.setWidth 64 &&& 1#64 <<< (size * 8 - 1) != 0,
       carry := carry, overflow := overflow,
       parity := ((value.setWidth 64).setWidth 8).cpop &&& 1 == 0 } : Flags) =
      valueFlags value carry overflow := by
  rw [hsize, signBit_ne_zero r, setWidth_setWidth_self r, setWidth_eq_zero r, parity_setWidth r]
  rfl

/-- The operation of a mnemonic, where its flags are rebuilt. -/
def flagsOperation : Mnemonic → Option Binary
  | .add => some .add
  | .sub | .cmp => some .sub
  | .and | .test => some .and
  | .or => some .or
  | .xor => some .xor
  | _ => none

theorem operation_some (r : Reg w) (hsize : size * 8 = w) {mnemonic : Mnemonic} {operator : Binary}
    (hoperator : flagsOperation mnemonic = some operator) (x y : BitVec w) :
    operation mnemonic (mask size) (x.setWidth 64) (y.setWidth 64) =
      some ((operator.value x y).setWidth 64, (operator.flags x y).carry, operator == .sub) := by
  have hle := le_of_reg r
  have hadd : (x.setWidth 64 + y.setWidth 64) &&& mask size = (x + y).setWidth 64 := by
    rw [and_mask hsize, BitVec.setWidth_add _ _ hle, setWidth_setWidth_self r,
      setWidth_setWidth_self r]
  have hsub : (x.setWidth 64 - y.setWidth 64) &&& mask size = (x - y).setWidth 64 := by
    rw [and_mask hsize, setWidth_sub hle, setWidth_setWidth_self r, setWidth_setWidth_self r]
  cases operator with
  | add =>
    obtain rfl : mnemonic = .add := by cases mnemonic <;> first | rfl | cases hoperator
    simp only [operation, hadd, carry_add r hsize]
    rfl
  | sub =>
    obtain rfl | rfl : mnemonic = .sub ∨ mnemonic = .cmp := by
      cases mnemonic <;> cases hoperator <;> simp
    all_goals
      simp only [operation, hsub, carry_sub r]
      rfl
  | and =>
    obtain rfl | rfl : mnemonic = .and ∨ mnemonic = .test := by
      cases mnemonic <;> cases hoperator <;> simp
    all_goals
      rw [operation, ← BitVec.setWidth_and]
      rfl
  | or =>
    obtain rfl : mnemonic = .or := by cases mnemonic <;> first | rfl | cases hoperator
    rw [operation, ← BitVec.setWidth_or]
    rfl
  | xor =>
    obtain rfl : mnemonic = .xor := by cases mnemonic <;> first | rfl | cases hoperator
    rw [operation, ← BitVec.setWidth_xor]
    rfl

/-- Overflow is in the signs of the operands and the result. -/
theorem overflow_wide (r : Reg w) (x y result : BitVec w) (subtraction : Bool) :
    ((if subtraction then x.setWidth 64 ^^^ y.setWidth 64
        else ~~~(x.setWidth 64 ^^^ y.setWidth 64)) &&&
      (x.setWidth 64 ^^^ result.setWidth 64) &&& 1#64 <<< (w - 1) != 0) =
      ((if subtraction then x.msb ^^ y.msb else !(x.msb ^^ y.msb)) && (x.msb ^^ result.msb)) := by
  have hbits := bits_of r
  have hle : w ≤ 64 := by omega
  have hpos : 0 < w := by omega
  have hself := setWidth_setWidth_self r
  rw [signBit_ne_zero r]
  cases subtraction with
  | true =>
    simp only [if_true, BitVec.setWidth_and, BitVec.setWidth_xor, hself, BitVec.msb_and,
      BitVec.msb_xor]
  | false =>
    simp only [Bool.false_eq_true, if_false, BitVec.setWidth_and, BitVec.setWidth_xor,
      BitVec.setWidth_not hle, hself, BitVec.msb_and, BitVec.msb_xor, BitVec.msb_not, hpos,
      decide_true, Bool.true_and]

theorem operationFlags_some (r : Reg w) (hsize : size * 8 = w) {mnemonic : Mnemonic}
    {operator : Binary} (hoperator : flagsOperation mnemonic = some operator) (p q : BitVec 64) :
    operationFlags mnemonic size p q = some (operator.flags (p.setWidth w) (q.setWidth w)) := by
  unfold operationFlags
  dsimp only
  rw [and_mask hsize, and_mask hsize, operation_some r hsize hoperator, hsize]
  generalize p.setWidth w = x
  generalize q.setWidth w = y
  have hoverflow := overflow_wide r x y
  have hflags := valueFlags_wide r hsize
  rw [hsize] at hflags
  simp only [Option.bind_eq_bind, Option.bind_some, hoverflow, hflags]
  congr 1
  cases operator with
  | add =>
    obtain rfl : mnemonic = .add := by cases mnemonic <;> first | rfl | cases hoperator
    have hsigns : x.saddOverflow y = (!(x.msb ^^ y.msb) && (x.msb ^^ (x + y).msb)) := by
      rw [BitVec.saddOverflow_eq]
      cases x.msb <;> cases y.msb <;> cases (x + y).msb <;> rfl
    rw [Binary.flags, hsigns]
    rfl
  | sub =>
    have hsigns : x.ssubOverflow y = ((x.msb ^^ y.msb) && (x.msb ^^ (x - y).msb)) := by
      rw [BitVec.ssubOverflow_eq]
      cases x.msb <;> cases y.msb <;> cases (x - y).msb <;> rfl
    obtain rfl | rfl : mnemonic = .sub ∨ mnemonic = .cmp := by
      cases mnemonic <;> cases hoperator <;> simp
    all_goals
      rw [Binary.flags, hsigns]
      rfl
  | and =>
    obtain rfl | rfl : mnemonic = .and ∨ mnemonic = .test := by
      cases mnemonic <;> cases hoperator <;> simp
    all_goals rfl
  | or =>
    obtain rfl : mnemonic = .or := by cases mnemonic <;> first | rfl | cases hoperator
    rfl
  | xor =>
    obtain rfl : mnemonic = .xor := by cases mnemonic <;> first | rfl | cases hoperator
    rfl

theorem operationFlags_none {mnemonic : Mnemonic} (h : flagsOperation mnemonic = none)
    (p q : BitVec 64) : operationFlags mnemonic size p q = none := by
  cases mnemonic <;> first | cases h; done | simp [operationFlags, operation]

/-- A register with itself gives the flags of zero with zero. -/
theorem flags_self {operator : Binary} (h : operator = .sub ∨ operator = .xor) (x : BitVec w) :
    operator.flags x x = operator.flags (0#w) (0#w) := by
  obtain rfl | rfl := h
  · have hsub : ∀ z : BitVec w, Binary.sub.flags z z = valueFlags (0#w) false false := by
      intro z
      have hcarry : z.usubOverflow z = false := by simp [BitVec.usubOverflow]
      have hoverflow : z.ssubOverflow z = false := by
        rw [BitVec.ssubOverflow_eq]
        cases z.msb <;> rfl
      rw [Binary.flags, hcarry, hoverflow, BitVec.sub_self]
    rw [hsub, hsub]
  · rw [Binary.flags, Binary.flags, BitVec.xor_self, BitVec.xor_self]

end

section

variable {op : Instruction} {left right : Option (BitVec 64)} {w : Nat}

theorem rebuiltFlags_none (h : flagsOperation op.mnemonic = none) :
    rebuiltFlags op left right = none := by
  unfold rebuiltFlags
  dsimp only
  split
  · simp [operationFlags_none h]
  · rfl

/-- Rebuilt flags are those of the operation. -/
theorem rebuiltFlags_right {dst : Reg w} {operator : Binary} {x y : BitVec w} {flags : Flags}
    (hdst : op.operandAt 0 = .register (.of dst))
    (hoperator : flagsOperation op.mnemonic = some operator) (hleft : Represents left x)
    (hright : Represents right y) (hsame : op.sameRegister = true → y = x)
    (h : rebuiltFlags op left right = some flags) : flags = operator.flags x y := by
  have hsize : op.operandSize 0 = (Register.of dst).size := by rw [Instruction.operandSize, hdst]
  unfold rebuiltFlags at h
  dsimp only at h
  rw [hsize] at h
  split at h
  · by_cases hself : op.sameRegister = true ∧
        (op.mnemonic = .xor ∨ op.mnemonic = .sub ∨ op.mnemonic = .cmp)
    · rw [if_pos hself, Option.bind_eq_bind, Option.bind_some,
        operationFlags_some dst (size_of dst) hoperator] at h
      have hkind : operator = .sub ∨ operator = .xor := by
        obtain ⟨-, h | h | h⟩ := hself
        all_goals
          rw [h] at hoperator
          obtain rfl := Option.some.inj hoperator
          simp
      rw [← Option.some.inj h, hsame hself.1, flags_self hkind x]
      simp
    · rw [if_neg hself] at h
      obtain ⟨⟨p, q⟩, hpq, h⟩ := Option.bind_eq_some_iff.mp h
      obtain ⟨hp, hq⟩ := zip_eq_some.mp hpq
      rw [operationFlags_some dst (size_of dst) hoperator] at h
      rw [← Option.some.inj h, hleft p hp, hright q hq]
  · cases h

theorem Agrees.withRebuilt {A : Architecture} {s : State} {cpu : Cpu} {flags : Flags}
    (h : Agrees A s cpu) (hkeep : op.rflagsModified = 0 → flags = cpu.flags)
    (hrebuilt : ∀ f, rebuiltFlags op left right = some f → f = flags) :
    Agrees A (if op.rflagsModified ≠ 0 then { s with flags := rebuiltFlags op left right } else s)
      (cpu.withFlags flags) := by
  by_cases hmodified : op.rflagsModified ≠ 0
  · rw [if_pos hmodified]
    exact ⟨h.known, hrebuilt⟩
  · rw [if_neg hmodified, hkeep (Decidable.not_not.mp hmodified)]
    exact h

theorem Agrees.withQuiet {A : Architecture} {s : State} {cpu : Cpu} {flags : Flags}
    (h : Agrees A s cpu) (left right : Option (BitVec 64))
    (hquiet : flagsOperation op.mnemonic = none)
    (hkeep : op.rflagsModified = 0 → flags = cpu.flags) :
    Agrees A (if op.rflagsModified ≠ 0 then { s with flags := rebuiltFlags op left right } else s)
      (cpu.withFlags flags) := by
  refine h.withRebuilt hkeep fun f hf => ?_
  rw [rebuiltFlags_none hquiet] at hf
  cases hf

end

end CapaX.Emucode
