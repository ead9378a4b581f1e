import CapaX.Emucode.State

/-
  The emulator's state against a processor: `Agrees` says that what is known of a register, bit by
  bit, is what the processor has there, and that known flags are the processor's. Reading and
  writing registers keep to it (`Agrees.register`, `Agrees.setRegister`), whatever their width.
-/

namespace CapaX.Emucode

open Collections Recovery X86

/-! ## Registers -/

/-- The name of a register. -/
def Register.of {w : Nat} : Reg w → Register
  | .low n => .low n
  | .high n => .high n
  | .word n => .word n
  | .dword n => .dword n
  | .qword n => .qword n

section

variable {w : Nat}

theorem bits_of (r : Reg w) : w = 8 ∨ w = 16 ∨ w = 32 ∨ w = 64 := by
  cases r <;> simp

theorem le_of_reg (r : Reg w) : w ≤ 64 := by
  have hbits := bits_of r
  omega

theorem size_of (r : Reg w) : (Register.of r).size * 8 = w := by
  cases r <;> rfl

theorem clampedBits_of (r : Reg w) : clampedBits (Register.of r).size = w := by
  cases r <;> rfl

theorem fullRegister_of (r : Reg w) : (Register.of r).fullRegister = r.full := by
  cases r <;> rfl

theorem of_ne_none (r : Reg w) : Register.of r ≠ .none := by
  cases r <;> simp [Register.of]

theorem highByte_of (r : Reg w) : (if highByte (Register.of r) then 8 else 0) = r.lsb := by
  cases r <;> rfl

theorem of_inj {r r' : Reg w} (h : Register.of r = Register.of r') : r = r' := by
  cases r <;> cases r' <;> simp_all [Register.of]

theorem bitness_cases (A : Architecture) : A.bitness = 32 ∨ A.bitness = 64 := by
  cases A <;> simp [Architecture.bitness]

theorem lsb_add_le {bits : Nat} (r : Reg w) (hw : w ≤ bits) (hbits : 16 ≤ bits) :
    r.lsb + w ≤ bits := by
  cases r with
  | high n => exact hbits
  | _ => simpa [Reg.lsb] using hw

theorem lsb_of_le {r : Reg w} (h : 16 ≤ w) : r.lsb = 0 := by
  cases r with
  | high n => omega
  | _ => rfl

theorem setWidth_setWidth_self (r : Reg w) (x : BitVec w) : (x.setWidth 64).setWidth w = x := by
  rw [BitVec.setWidth_setWidth_of_le _ (le_of_reg r), BitVec.setWidth_eq]

theorem getLsbD_mask (size i : Nat) :
    (mask size).getLsbD i = decide (i < size * 8 ∧ i < 64) := by
  unfold mask
  by_cases hsize : 8 ≤ size
  · rw [if_pos hsize, BitVec.getLsbD_allOnes]
    grind
  · rw [if_neg hsize, ← BitVec.testBit_toNat]
    have hpow : 2 ^ (size * 8) < 2 ^ 64 := Nat.pow_lt_pow_right (by decide) (by omega)
    have hpos : 0 < 2 ^ (size * 8) := Nat.two_pow_pos _
    have hone : ((1#64 <<< (size * 8)) - 1#64).toNat = 2 ^ (size * 8) - 1 := by
      rw [BitVec.toNat_sub_of_le]
      · simp only [BitVec.toNat_shiftLeft, BitVec.toNat_ofNat, Nat.shiftLeft_eq]
        omega
      · rw [BitVec.le_def]
        simp only [BitVec.toNat_shiftLeft, BitVec.toNat_ofNat, Nat.shiftLeft_eq]
        omega
    rw [hone, Nat.testBit_two_pow_sub_one]
    grind

theorem and_mask {size : Nat} (h : size * 8 = w) (v : BitVec 64) :
    v &&& mask size = (v.setWidth w).setWidth 64 := by
  apply BitVec.eq_of_getLsbD_eq
  intro i hi
  simp only [BitVec.getLsbD_and, getLsbD_mask, BitVec.getLsbD_setWidth, h]
  grind

end

/-! ## Agreement -/

/-- The known bits below `bits` are right. -/
def KnownRight (bits : Nat) (value known x : BitVec 64) : Prop :=
  ∀ i < bits, known.getLsbD i = true → value.getLsbD i = x.getLsbD i

/-- What a state knows of a processor of an architecture. -/
structure Agrees (A : Architecture) (s : State) (cpu : Cpu) : Prop where
  known : ∀ (n : Fin 16) value known, s.registers.get? n = some (value, known) →
    KnownRight A.bitness value known (cpu.reg n)
  flags : ∀ flags, s.flags = some flags → flags = cpu.flags

/-- A value that is known is `x`, but for what is above its width. -/
def Represents {w : Nat} (v : Option (BitVec 64)) (x : BitVec w) : Prop :=
  ∀ u, v = some u → u.setWidth w = x

section

variable {A : Architecture} {w : Nat} {s : State} {cpu : Cpu} {r : Reg w}

theorem Agrees.register {v : BitVec 64} (h : Agrees A s cpu) (hw : w ≤ A.bitness)
    (hv : s.register (.of r) = some v) : v = (cpu.read r).setWidth 64 := by
  have hsize := size_of r
  have hbits := bitness_cases A
  have hle := lsb_add_le r hw (by omega)
  unfold State.register at hv
  rw [if_neg (of_ne_none r), if_neg (by omega), fullRegister_of, highByte_of] at hv
  obtain ⟨⟨value, known⟩, hget, hv⟩ := Option.bind_eq_some_iff.mp hv
  dsimp only at hv
  split at hv
  · rename_i hwanted
    obtain rfl := Option.some.inj hv
    apply BitVec.eq_of_getLsbD_eq
    intro i hi
    simp only [BitVec.getLsbD_and, getLsbD_mask, BitVec.getLsbD_setWidth, Cpu.read,
      BitVec.getLsbD_extractLsb', BitVec.getLsbD_ushiftRight, hsize]
    by_cases hiw : i < w
    · have hknown : known.getLsbD (r.lsb + i) = true := by
        have hbit := congrArg (fun x : BitVec 64 => x.getLsbD (r.lsb + i)) hwanted
        simp only [BitVec.getLsbD_and, BitVec.getLsbD_shiftLeft, getLsbD_mask, hsize] at hbit
        grind
      have hright := h.known _ value known hget (r.lsb + i) (by omega) hknown
      simp [hiw, hi, hright]
    · simp [hiw]
  · cases hv

theorem Agrees.represents (h : Agrees A s cpu) (hw : w ≤ A.bitness) :
    Represents (s.register (.of r)) (cpu.read r) := by
  intro u hu
  rw [h.register hw hu, setWidth_setWidth_self r]

theorem Agrees.stored (h : Agrees A s cpu) (n : Fin 16) :
    KnownRight A.bitness ((s.registers.get? n).getD (0, 0)).1
      ((s.registers.get? n).getD (0, 0)).2 (cpu.reg n) := by
  cases hget : s.registers.get? n with
  | none =>
    intro i _ hi
    simp at hi
  | some entry => exact h.known n entry.1 entry.2 hget

/-- A write of a register keeps the agreement, also where what is written is not known. -/
theorem Agrees.setRegister {v : Option (BitVec 64)} {x : BitVec w} (h : Agrees A s cpu)
    (hv : Represents v x) : Agrees A (s.setRegister (.of r) v) (cpu.write r x) := by
  have hsize := size_of r
  have hbits := bits_of r
  have hbitness := bitness_cases A
  unfold State.setRegister
  rw [if_neg (by omega), fullRegister_of, highByte_of]
  refine ⟨fun n value known hget => ?_, h.flags⟩
  dsimp only at hget
  rw [OrdMap.get?_upsert] at hget
  by_cases hn : n = r.full
  · subst hn
    rw [if_pos rfl] at hget
    have hstored := h.stored r.full
    generalize (s.registers.get? r.full).getD (0, 0) = stored at hget hstored
    obtain ⟨rfl, rfl⟩ := Prod.mk.inj (Option.some.inj hget)
    intro i hi hknown
    have hmerge : (cpu.write r x).reg r.full = Cpu.merge (cpu.reg r.full) r x :=
      Function.update_self ..
    have hi64 : i < 64 := by omega
    rw [hmerge, Cpu.getLsbD_merge _ _ _ hi64]
    have hvalue : ∀ u, v = some u → ∀ j < w, u.getLsbD j = x.getLsbD j := fun u hu j hj => by
      rw [← hv u hu, BitVec.getLsbD_setWidth, decide_eq_true hj, Bool.true_and]
    have hsmall : ∀ j, w ≤ j → x.getLsbD j = false := fun j hj => BitVec.getLsbD_of_ge _ _ hj
    have hold := hstored i hi
    by_cases hwide : 32 ≤ w
    · have hlsb : r.lsb = 0 := lsb_of_le (by omega)
      have hsize4 : 4 ≤ (Register.of r).size := by omega
      rw [if_pos hwide]
      cases v with
      | none => simp [hsize4] at hknown
      | some u =>
        have hu := hvalue u rfl
        simp only [hsize4, if_true, hlsb, BitVec.getLsbD_or, BitVec.getLsbD_and, BitVec.getLsbD_not,
          BitVec.getLsbD_allOnes, BitVec.shiftLeft_zero, getLsbD_mask, hsize]
        grind
    · have hsize4 : ¬4 ≤ (Register.of r).size := by omega
      rw [if_neg hwide]
      cases v with
      | none =>
        simp only [hsize4, if_false, BitVec.getLsbD_or, BitVec.getLsbD_and, BitVec.getLsbD_not,
          BitVec.getLsbD_shiftLeft, getLsbD_mask, hsize] at hknown ⊢
        grind
      | some u =>
        have hu := hvalue u rfl
        simp only [hsize4, if_false, BitVec.getLsbD_or, BitVec.getLsbD_and, BitVec.getLsbD_not,
          BitVec.getLsbD_shiftLeft, getLsbD_mask, hsize] at hknown ⊢
        grind
  · have hne : ¬(n : Nat) = (r.full : Nat) := fun h => hn (Fin.val_inj.mp h)
    rw [if_neg hne] at hget
    show KnownRight _ value known (Function.update cpu.reg r.full _ n)
    rw [Function.update_of_ne hn]
    exact h.known n value known hget

end

end CapaX.Emucode
