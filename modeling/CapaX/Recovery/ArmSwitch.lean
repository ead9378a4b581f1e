import CapaX.Isa.A64
import CapaX.Recovery.Switch

/-
  AArch64 switches under the instruction set: what the words of an accepted dispatch do when they
  are executed (`A64.run`). The words are read off the masks of `armTargets`, and the addresses it
  computes with checks are those that the instructions compute.

  `armTargets_spec`: an execution takes the guard's branch, or it jumps to the target that the
  table has for the selector.
-/

namespace CapaX.Recovery

open A64

/-! ## Addresses -/

theorem checkedAdd_toBitVec {a b : UInt64} {n : Nat} (h : checkedAdd a n = some b) :
    b.toBitVec = a.toBitVec + BitVec.ofNat 64 n := by
  unfold checkedAdd at h
  split at h
  · obtain rfl := Option.some.inj h
    apply BitVec.eq_of_toNat_eq
    simp
  · cases h

theorem checkedAddSigned_toBitVec {a b : UInt64} {i : Int} (h : checkedAddSigned a i = some b) :
    b.toBitVec = a.toBitVec + BitVec.ofInt 64 i := by
  unfold checkedAddSigned at h
  dsimp only at h
  split at h
  · next hrange =>
    obtain rfl := Option.some.inj h
    have hsum : BitVec.ofInt 64 ((a.toNat : Int) + i) = a.toBitVec + BitVec.ofInt 64 i := by
      rw [BitVec.ofInt_add, BitVec.ofInt_natCast]
      congr 1
      exact BitVec.ofNat_toNat _ _
    rw [← hsum, ← Int.toNat_of_nonneg hrange.1, BitVec.ofInt_natCast]
    rfl
  · cases h

theorem pageOf_toBitVec (a : UInt64) : (pageOf a).toBitVec = a.toBitVec &&& ~~~0xfff#64 := rfl

theorem toSigned_toNat {n : Nat} (hn : 0 < n) (w : BitVec n) : toSigned n w.toNat = w.toInt := by
  rw [BitVec.toInt_eq_toNat_cond, toSigned]
  have hpow : 2 ^ n = 2 * 2 ^ (n - 1) := by
    rw [← Nat.pow_succ', Nat.succ_eq_add_one, Nat.sub_add_cancel hn]
  have hiff : w.toNat < 2 ^ (n - 1) ↔ 2 * w.toNat < 2 ^ n := by omega
  by_cases hlt : w.toNat < 2 ^ (n - 1)
  · rw [if_pos hlt, if_pos (hiff.mp hlt)]
  · rw [if_neg hlt, if_neg (mt hiff.mpr hlt)]
    norm_cast

theorem adrpOffset_eq (w : Word) : BitVec.ofInt 64 (adrpOffset w) =
    (bits w 5 19 ++ bits w 29 2).signExtend 64 <<< 12 := by
  have happend : field w 5 19 * 4 + field w 29 2 = (bits w 5 19 ++ bits w 29 2).toNat := by
    rw [BitVec.toNat_append, ← Nat.shiftLeft_add_eq_or_of_lt (bits w 29 2).isLt, Nat.shiftLeft_eq]
    rfl
  have hoff : adrpOffset w = (bits w 5 19 ++ bits w 29 2).toInt * 4096 := by
    rw [adrpOffset, happend, toSigned_toNat (by decide)]
  rw [hoff, BitVec.ofInt_mul, BitVec.shiftLeft_eq_mul_twoPow]
  rfl

theorem setWidth_eq_ofNat {n m : Nat} (x : BitVec n) : x.setWidth m = BitVec.ofNat m x.toNat := by
  apply BitVec.eq_of_toNat_eq
  simp

theorem setWidth_narrow (x : BitVec 32) : (x.setWidth 64).setWidth 32 = x := by
  rw [BitVec.setWidth_setWidth_of_le _ (by decide), BitVec.setWidth_eq]

theorem imm24_toNat (w : Word) : (imm24 w).toNat = Switch.shiftedImmediate w := by
  have hbit : w.getLsbD 22 = decide (field w 22 1 = 1) := by
    have hone : w.getLsbD 22 = (bits w 22 1).getLsbD 0 := by simp [bits]
    have hcases : ∀ b : BitVec 1, b.getLsbD 0 = decide (b.toNat = 1) := by decide
    rw [hone, hcases]
    rfl
  unfold imm24 Switch.shiftedImmediate
  rw [hbit]
  by_cases h : field w 22 1 = 1
  · rw [decide_eq_true h, if_pos rfl, if_pos h, BitVec.toNat_append]
    exact Nat.or_zero _
  · rw [decide_eq_false h, if_neg Bool.false_ne_true, if_neg h, BitVec.toNat_append]
    exact Nat.zero_or _
/-! ## Words -/

section

variable {w : Word}

theorem decode_cmp (h : w &&& 0x7f80001f#32 = 0x7100001f#32) :
    decode w = some (.addSubImm (w.getLsbD 31) true true (imm24 w) (bits w 5 5) 31#5) := by
  have hclass : bits w 26 3 = 0b100#3 := bits_of_mask h (by decide)
  have hkind : bits w 23 3 = 0b010#3 := bits_of_mask h (by decide)
  have hsub : w.getLsbD 30 = true := getLsbD_of_mask h (by decide)
  have hflags : w.getLsbD 29 = true := getLsbD_of_mask h (by decide)
  have hrd : bits w 0 5 = 31#5 := bits_of_mask h (by decide)
  rw [decode, if_pos hclass, decodeImmediate, if_pos hkind, hsub, hflags, hrd]

theorem decode_narrowAddSub (h : w &&& 0x9f800000#32 = 0x11000000#32) :
    decode w = some (.addSubImm false (w.getLsbD 30) (w.getLsbD 29) (imm24 w) (bits w 5 5)
      (bits w 0 5)) := by
  have hclass : bits w 26 3 = 0b100#3 := bits_of_mask h (by decide)
  have hkind : bits w 23 3 = 0b010#3 := bits_of_mask h (by decide)
  have hwide : w.getLsbD 31 = false := getLsbD_of_mask h (by decide)
  rw [decode, if_pos hclass, decodeImmediate, if_pos hkind, hwide]

theorem decode_addImm (h : w &&& 0xff800000#32 = 0x91000000#32) :
    decode w = some (.addSubImm true false false (imm24 w) (bits w 5 5) (bits w 0 5)) := by
  have hclass : bits w 26 3 = 0b100#3 := bits_of_mask h (by decide)
  have hkind : bits w 23 3 = 0b010#3 := bits_of_mask h (by decide)
  have hwide : w.getLsbD 31 = true := getLsbD_of_mask h (by decide)
  have hsub : w.getLsbD 30 = false := getLsbD_of_mask h (by decide)
  have hflags : w.getLsbD 29 = false := getLsbD_of_mask h (by decide)
  rw [decode, if_pos hclass, decodeImmediate, if_pos hkind, hwide, hsub, hflags]

theorem decode_adrp (h : w &&& 0x9f000000#32 = 0x90000000#32) :
    decode w = some (.adrp ((bits w 5 19 ++ bits w 29 2).signExtend 64 <<< 12) (bits w 0 5)) := by
  have hclass : bits w 26 3 = 0b100#3 := bits_of_mask h (by decide)
  have hkind : bits w 24 2 = 0b00#2 := bits_of_mask h (by decide)
  have hpage : w.getLsbD 31 = true := getLsbD_of_mask h (by decide)
  have hnot : bits w 23 3 ≠ 0b010#3 := by
    intro he
    have hone : w.getLsbD 24 = true := by
      have hbit := congrArg (fun b => b.getLsbD 1) he
      simpa [bits] using hbit
    have hzero : w.getLsbD 24 = false := getLsbD_of_mask h (by decide)
    rw [hone] at hzero
    cases hzero
  rw [decode, if_pos hclass, decodeImmediate, if_neg hnot, if_pos ⟨hkind, hpage⟩]

theorem decode_bCond (h : w &&& 0xff000010#32 = 0x54000000#32) :
    decode w = some (.bCond (bits w 0 4) ((bits w 5 19 ++ 0#2).signExtend 64)) := by
  have hclass : bits w 26 3 = 0b101#3 := bits_of_mask h (by decide)
  have hkind : bits w 24 8 = 0b01010100#8 := bits_of_mask h (by decide)
  have hlow : w.getLsbD 4 = false := getLsbD_of_mask h (by decide)
  rw [decode, if_neg (by rw [hclass]; decide), if_pos hclass, decodeBranch, if_pos ⟨hkind, hlow⟩]

theorem decode_br (h : w &&& 0xfffffc1f#32 = 0xd61f0000#32) :
    decode w = some (.br (bits w 5 5)) := by
  have hclass : bits w 26 3 = 0b101#3 := bits_of_mask h (by decide)
  have hcond : bits w 24 8 = 0b11010110#8 := bits_of_mask h (by decide)
  have hhigh : bits w 10 22 = 0b1101011000011111000000#22 := bits_of_mask h (by decide)
  have hlow : bits w 0 5 = 0#5 := bits_of_mask h (by decide)
  rw [decode, if_neg (by rw [hclass]; decide), if_pos hclass, decodeBranch,
    if_neg (by rw [hcond]; exact fun hboth => absurd hboth.1 (by decide)), if_pos ⟨hhigh, hlow⟩]

theorem decode_addShifted (h : w &&& 0xffe0fc00#32 = 0x8b000000#32) :
    decode w = some (.addShifted (bits w 16 5) 0#6 (bits w 5 5) (bits w 0 5)) := by
  have hclass : bits w 25 3 = 0b101#3 := bits_of_mask h (by decide)
  have himm : bits w 26 3 = 0b010#3 := bits_of_mask h (by decide)
  have hkind : bits w 21 11 = 0b10001011000#11 := bits_of_mask h (by decide)
  have hamount : bits w 10 6 = 0#6 := bits_of_mask h (by decide)
  rw [decode, if_neg (by rw [himm]; decide), if_neg (by rw [himm]; decide), if_pos hclass,
    decodeRegister, if_pos hkind, hamount]

theorem decode_ldrsw (h : w &&& 0xffe01c00#32 = 0xb8a01800#32) (hoption : w.getLsbD 14 = true) :
    decode w = some (.ldrsw (bits w 16 5) (bits w 13 3) true (bits w 5 5) (bits w 0 5)) := by
  have himm : bits w 26 3 = 0b110#3 := bits_of_mask h (by decide)
  have hreg : bits w 25 3 = 0b100#3 := bits_of_mask h (by decide)
  have hload : bits w 27 1 = 1#1 := bits_of_mask h (by decide)
  have hload' : bits w 25 1 = 0#1 := bits_of_mask h (by decide)
  have hkind : bits w 21 11 = 0b10111000101#11 := bits_of_mask h (by decide)
  have hlow : bits w 10 2 = 0b10#2 := bits_of_mask h (by decide)
  have hscaled : w.getLsbD 12 = true := getLsbD_of_mask h (by decide)
  rw [decode, if_neg (by rw [himm]; decide), if_neg (by rw [himm]; decide),
    if_neg (by rw [hreg]; decide), if_pos ⟨hload, hload'⟩, decodeLoad,
    if_pos ⟨hkind, hlow, hoption⟩, hscaled]

end

/-! ## Executing a dispatch -/

namespace Switch

variable {A : Architecture} (view : SwitchView A)

/-- The words an execution loads from the image. -/
def memory (address : BitVec 64) : Option Word :=
  (readU32 view.image.toLoadedImage (UInt64.ofBitVec address)).map (BitVec.ofNat 32)

/-- Instructions as words at their addresses. -/
def wordsOf (located : List (Located A)) : Option (List (BitVec 64 × Word)) :=
  located.mapM fun l => (armWord view.image.toLoadedImage l).map fun w => (l.address.toBitVec, w)

/-- The instruction before the compare, where the load takes all bits of an index of which the
    compare bounds the low half. -/
def leading (compare : Located A) (cmp ldr : Word) : List (Located A) :=
  if field ldr 13 3 = 3 ∧ field cmp 31 1 = 0 then (previous view compare.address).toList else []

/-- What the compare reads. -/
def selector (cmp : Word) (s : State) : Nat :=
  if cmp.getLsbD 31 then (s.reg (bits cmp 5 5)).toNat
  else ((s.reg (bits cmp 5 5)).setWidth 32).toNat

theorem field_one_ne_zero_iff {w : Word} {i : Nat} :
    field w i 1 ≠ 0 ↔ w.getLsbD i = true := by
  have hone : w.getLsbD i = (bits w i 1).getLsbD 0 := by simp [bits]
  have hcases : ∀ b : BitVec 1, b.toNat ≠ 0 ↔ b.getLsbD 0 = true := by decide
  rw [hone]
  exact hcases (bits w i 1)

/-- The guard is taken by a selector from the number of cases on. -/
theorem exec_compare {cmp cond : Word} {inclusive : Bool} {count : Nat}
    (hinclusive : guardInclusive cond = some inclusive)
    (hcount : caseCount (shiftedImmediate cmp) inclusive = some count) (s : State) :
    ∃ flags, execAddSubImm (cmp.getLsbD 31) true true (imm24 cmp) (bits cmp 5 5) 31#5 s =
        { s with flags := flags } ∧
      conditionHolds flags (bits cond 0 4) = decide (count ≤ selector cmp s) := by
  have hlimit := (imm24 cmp).isLt
  have hcount' : count = (imm24 cmp).toNat + inclusive.toNat := by
    unfold caseCount at hcount
    dsimp only at hcount
    split at hcount
    · rw [imm24_toNat]
      exact (Option.some.inj hcount).symm
    · cases hcount
  have hcond : ∀ {n : Nat} (x y : BitVec n), y.toNat = (imm24 cmp).toNat →
      conditionHolds (addSub true x y).2 (bits cond 0 4) = decide (count ≤ x.toNat) := by
    intro n x y hy
    unfold guardInclusive at hinclusive
    split at hinclusive
    · next h8 =>
      obtain rfl := Option.some.inj hinclusive
      have hbits : bits cond 0 4 = 8#4 := BitVec.eq_of_toNat_eq h8
      rw [hbits, conditionHolds_hi, hy, hcount']
      rfl
    · split at hinclusive
      · next h2 =>
        obtain rfl := Option.some.inj hinclusive
        have hbits : bits cond 0 4 = 2#4 := BitVec.eq_of_toNat_eq h2
        rw [hbits, conditionHolds_hs, hy, hcount']
        rfl
      · cases hinclusive
  unfold selector
  cases hwide : cmp.getLsbD 31 with
  | true =>
    refine ⟨_, rfl, hcond (s.reg (bits cmp 5 5)) ((imm24 cmp).setWidth 64) ?_⟩
    exact BitVec.toNat_setWidth_of_le (by decide)
  | false =>
    refine ⟨_, rfl, hcond ((s.reg (bits cmp 5 5)).setWidth 32) ((imm24 cmp).setWidth 32) ?_⟩
    exact BitVec.toNat_setWidth_of_le (by decide)

/-- How the load extends the selector so that it stays the number that was compared. -/
def Extends (cmp ldr : Word) (s : State) : Prop :=
  (field ldr 13 3 = 2 ∨ field ldr 13 3 = 6) ∧ cmp.getLsbD 31 = false ∨
  field ldr 13 3 = 3 ∧ (cmp.getLsbD 31 = false →
    s.reg (bits cmp 5 5) = ((s.reg (bits cmp 5 5)).setWidth 32).setWidth 64)

theorem extendReg_selector {cmp ldr : Word} {s : State} (h : Extends cmp ldr s)
    (hsmall : selector cmp s < 256) :
    extendReg (s.reg (bits cmp 5 5)) (bits ldr 13 3) = BitVec.ofNat 64 (selector cmp s) := by
  obtain ⟨value, hvalue⟩ : ∃ value, value = s.reg (bits cmp 5 5) := ⟨_, rfl⟩
  have hoption : (bits ldr 13 3).toNat = field ldr 13 3 := rfl
  have hlow : (value.setWidth 32).setWidth 64 = BitVec.ofNat 64 (value.setWidth 32).toNat :=
    setWidth_eq_ofNat _
  unfold Extends at h
  unfold selector at hsmall ⊢
  unfold extendReg
  rw [← hvalue] at h hsmall ⊢
  rw [hoption]
  rcases h with ⟨hext | hext, hnarrow⟩ | ⟨hext, hcleared⟩
  · rw [hext, hnarrow]
    exact hlow
  · rw [hnarrow, if_neg Bool.false_ne_true] at hsmall
    rw [hext, hnarrow]
    show (value.setWidth 32).signExtend 64 = _
    have hpositive : (value.setWidth 32).toInt = (value.setWidth 32).toNat := by
      rw [BitVec.toInt_eq_toNat_cond, if_pos (by omega)]
    rw [BitVec.signExtend, hpositive, BitVec.ofInt_natCast]
    rfl
  · rw [hext]
    cases hwide : cmp.getLsbD 31 with
    | true => exact (BitVec.ofNat_toNat 64 value).symm.trans (by simp)
    | false =>
      have hsame := hcleared hwide
      rw [hlow] at hsame
      exact hsame

theorem forall₂_of_mapM {α β : Type} {f : α → Option β} {l : List α} {bs : List β}
    (h : l.mapM f = some bs) : List.Forall₂ (fun a b => f a = some b) l bs := by
  induction l generalizing bs with
  | nil =>
    obtain rfl : [] = bs := by simpa using h
    exact .nil
  | cons a l ih =>
    rw [List.mapM_cons] at h
    obtain ⟨b, hb, h⟩ := Option.bind_eq_some_iff.mp h
    obtain ⟨bs', hbs, h⟩ := Option.bind_eq_some_iff.mp h
    obtain rfl := Option.some.inj h
    exact .cons hb (ih hbs)

/-- What the words of an accepted dispatch are. -/
structure Dispatch (cmp cond adrp add ldr sum br : Word) : Prop where
  isCmp : cmp &&& 0x7f80001f#32 = 0x7100001f#32
  isCond : cond &&& 0xff000010#32 = 0x54000000#32
  isAdrp : adrp &&& 0x9f000000#32 = 0x90000000#32
  isAdd : add &&& 0xff800000#32 = 0x91000000#32
  isLdr : ldr &&& 0xffe01c00#32 = 0xb8a01800#32
  register : ldr.getLsbD 14 = true
  isSum : sum &&& 0xffe0fc00#32 = 0x8b000000#32
  isBr : br &&& 0xfffffc1f#32 = 0xd61f0000#32
  index_ne : bits cmp 5 5 ≠ 31#5
  loaded_ne : bits ldr 0 5 ≠ 31#5
  result_ne : bits sum 0 5 ≠ 31#5
  base_ne : bits adrp 0 5 ≠ 31#5
  base_ne_index : bits adrp 0 5 ≠ bits cmp 5 5
  loaded_ne_base : bits ldr 0 5 ≠ bits adrp 0 5
  add_rd : bits add 0 5 = bits adrp 0 5
  add_rn : bits add 5 5 = bits adrp 0 5
  ldr_rn : bits ldr 5 5 = bits adrp 0 5
  ldr_rm : bits ldr 16 5 = bits cmp 5 5
  br_rn : bits br 5 5 = bits sum 0 5
  operands : bits sum 5 5 = bits ldr 0 5 ∧ bits sum 16 5 = bits adrp 0 5 ∨
    bits sum 5 5 = bits adrp 0 5 ∧ bits sum 16 5 = bits ldr 0 5

/-- The arm of a selector, as `arm_targets` reads it from the table. -/
def arm (table : UInt64) (entry : Nat) : Option UInt64 := do
  let slot ← checkedAdd table (4 * entry)
  let raw ← readU32 view.image.toLoadedImage slot
  checkedAddSigned table (toSigned 32 raw)

theorem memory_slot {table slot : UInt64} {entry raw : Nat}
    (hslot : checkedAdd table (4 * entry) = some slot)
    (hraw : readU32 view.image.toLoadedImage slot = some raw) :
    memory view (table.toBitVec + BitVec.ofNat 64 entry <<< 2) = some (BitVec.ofNat 32 raw) := by
  have haddress : table.toBitVec + BitVec.ofNat 64 entry <<< 2 = slot.toBitVec := by
    rw [checkedAdd_toBitVec hslot, BitVec.shiftLeft_eq_mul_twoPow, Nat.mul_comm, BitVec.ofNat_mul]
    rfl
  rw [memory, haddress, UInt64.ofBitVec_toBitVec, hraw]
  rfl

theorem readU32_lt {address : UInt64} {raw : Nat}
    (h : readU32 view.image.toLoadedImage address = some raw) : raw < 2 ^ 32 := by
  unfold readU32 at h
  split at h
  · next b₀ b₁ b₂ b₃ _ =>
    obtain rfl := Option.some.inj h
    have h₀ := b₀.toNat_lt
    have h₁ := b₁.toNat_lt
    have h₂ := b₂.toNat_lt
    have h₃ := b₃.toNat_lt
    simp only [fromLeBytes, List.foldr_cons, List.foldr_nil, UInt64.toNat_add, UInt64.toNat_mul,
      UInt8.toNat_toUInt64, UInt64.reduceToNat]
    omega
  · cases h

/-- The guard lets a selector pass, and then the words behind it jump to its arm. -/
theorem run_arms {view : SwitchView A} {cmp cond adrp add ldr sum br : Word}
    (hd : Dispatch cmp cond adrp add ldr sum br) {page pageAddress table target : UInt64}
    (hpage : checkedAddSigned (pageOf page) (adrpOffset adrp) = some pageAddress)
    (htable : checkedAdd pageAddress (shiftedImmediate add) = some table) {s : State}
    (hext : Extends cmp ldr s) (hsmall : selector cmp s < 256)
    (harm : arm view table (selector cmp s) = some target) (pc₁ pc₂ pc₃ pc₄ : BitVec 64) :
    run (memory view)
      [(page.toBitVec, adrp), (pc₁, add), (pc₂, ldr), (pc₃, sum), (pc₄, br)] s =
      some (.jumps target.toBitVec) := by
  obtain ⟨slot, hslot, raw, hraw, htarget⟩ :
      ∃ slot, checkedAdd table (4 * selector cmp s) = some slot ∧
      ∃ raw, readU32 view.image.toLoadedImage slot = some raw ∧
        checkedAddSigned table (toSigned 32 raw) = some target := by
    simpa only [arm, Option.bind_eq_bind, Option.bind_eq_some_iff] using harm
  obtain ⟨word, hword⟩ : ∃ word, word = BitVec.ofNat 32 raw := ⟨_, rfl⟩
  have hsum : target.toBitVec = table.toBitVec + word.signExtend 64 := by
    have hsigned : toSigned 32 raw = word.toInt := by
      rw [← toSigned_toNat (by decide), hword, BitVec.toNat_ofNat,
        Nat.mod_eq_of_lt (readU32_lt view hraw)]
    rw [checkedAddSigned_toBitVec htarget, hsigned]
    rfl
  obtain ⟨s₁, hs₁⟩ : ∃ s₁, s₁ = s.write (bits adrp 0 5) pageAddress.toBitVec := ⟨_, rfl⟩
  obtain ⟨s₂, hs₂⟩ : ∃ s₂, s₂ = s₁.write (bits adrp 0 5) table.toBitVec := ⟨_, rfl⟩
  obtain ⟨s₃, hs₃⟩ : ∃ s₃, s₃ = s₂.write (bits ldr 0 5) (word.signExtend 64) := ⟨_, rfl⟩
  have hadrp : exec (memory view) page.toBitVec s
      (.adrp ((bits adrp 5 19 ++ bits adrp 29 2).signExtend 64 <<< 12) (bits adrp 0 5)) =
      some (.next s₁) := by
    rw [exec, State.writeZ_of_ne hd.base_ne, ← adrpOffset_eq, ← pageOf_toBitVec,
      ← checkedAddSigned_toBitVec hpage, hs₁]
  have hadd : exec (memory view) pc₁ s₁
      (.addSubImm true false false (imm24 add) (bits add 5 5) (bits add 0 5)) =
      some (.next s₂) := by
    have hvalue : (addSub false (s₁.reg (bits adrp 0 5)) ((imm24 add).setWidth 64)).1 =
        table.toBitVec := by
      rw [addSub_add_fst, hs₁, State.reg_write_self, checkedAdd_toBitVec htable, ← imm24_toNat,
        setWidth_eq_ofNat]
    rw [exec, hd.add_rd, hd.add_rn]
    show some (Step.next (s₁.write _ (addSub false _ _).1)) = _
    rw [hvalue, hs₂]
  have hldr : exec (memory view) pc₂ s₂
      (.ldrsw (bits ldr 16 5) (bits ldr 13 3) true (bits ldr 5 5) (bits ldr 0 5)) =
      some (.next s₃) := by
    have hindex : s₂.readZ (bits cmp 5 5) = s.reg (bits cmp 5 5) := by
      rw [State.readZ_of_ne hd.index_ne, hs₂, State.reg_write_of_ne hd.base_ne_index.symm, hs₁,
        State.reg_write_of_ne hd.base_ne_index.symm]
    have hbase : s₂.reg (bits adrp 0 5) = table.toBitVec := by
      rw [hs₂, State.reg_write_self]
    have hload : memory view (s₂.reg (bits adrp 0 5) +
        extendReg (s₂.readZ (bits cmp 5 5)) (bits ldr 13 3) <<< 2) = some word := by
      rw [hindex, extendReg_selector hext hsmall, hbase, memory_slot view hslot hraw, hword]
    rw [exec, hd.ldr_rm, hd.ldr_rn]
    show (memory view (s₂.reg (bits adrp 0 5) +
      extendReg (s₂.readZ (bits cmp 5 5)) (bits ldr 13 3) <<< 2)).bind _ = _
    rw [hload, Option.bind_some, State.writeZ_of_ne hd.loaded_ne, hs₃]
  have hloaded : s₃.readZ (bits ldr 0 5) = word.signExtend 64 := by
    rw [State.readZ_of_ne hd.loaded_ne, hs₃, State.reg_write_self]
  have hbase : s₃.readZ (bits adrp 0 5) = table.toBitVec := by
    rw [State.readZ_of_ne hd.base_ne, hs₃, State.reg_write_of_ne hd.loaded_ne_base.symm, hs₂,
      State.reg_write_self]
  have hadd' : exec (memory view) pc₃ s₃
      (.addShifted (bits sum 16 5) 0#6 (bits sum 5 5) (bits sum 0 5)) =
      some (.next (s₃.write (bits sum 0 5) target.toBitVec)) := by
    have hunshifted : ∀ x : BitVec 64, x <<< (0#6).toNat = x := BitVec.shiftLeft_zero
    rw [exec, State.writeZ_of_ne hd.result_ne, hunshifted]
    rcases hd.operands with ⟨h₁, h₂⟩ | ⟨h₁, h₂⟩
    · rw [h₁, h₂, hloaded, hbase, hsum, BitVec.add_comm table.toBitVec]
    · rw [h₁, h₂, hloaded, hbase, hsum]
  rw [run_next (decode_adrp hd.isAdrp) hadrp, run_next (decode_addImm hd.isAdd) hadd,
    run_next (decode_ldrsw hd.isLdr hd.register) hldr,
    run_next (decode_addShifted hd.isSum) hadd']
  refine run_jumps (decode_br hd.isBr) ?_
  rw [exec, hd.br_rn, State.readZ_of_ne hd.result_ne, State.reg_write_self]

/-! ### The instruction before the compare -/

section

variable {mem : BitVec 64 → Option Word} {w : Word}

/-- A W instruction leaves the high half of its result clear, -/
theorem run_narrow (h : w &&& 0x9f800000#32 = 0x11000000#32) (hrd : bits w 0 5 ≠ 31#5)
    (pc : BitVec 64) (s : State) : ∃ s', run mem [(pc, w)] s = some (.falls s') ∧
      s'.reg (bits w 0 5) = ((addSub (w.getLsbD 30) ((s.reg (bits w 5 5)).setWidth 32)
        ((imm24 w).setWidth 32)).1).setWidth 64 := by
  refine ⟨execAddSubImm false (w.getLsbD 30) (w.getLsbD 29) (imm24 w) (bits w 5 5) (bits w 0 5) s,
    run_next (decode_narrowAddSub h) rfl, ?_⟩
  unfold execAddSubImm
  rw [if_neg Bool.false_ne_true]
  dsimp only
  split
  · rw [State.writeZ_of_ne hrd, State.reg_write_self]
  · rw [State.reg_write_self]

/-- and its result can be any. -/
theorem exists_run_narrow (h : w &&& 0x9f800000#32 = 0x11000000#32) (hrd : bits w 0 5 ≠ 31#5)
    (pc : BitVec 64) (value : BitVec 32) : ∃ s s', run mem [(pc, w)] s = some (.falls s') ∧
      s'.reg (bits w 0 5) = value.setWidth 64 := by
  obtain ⟨operand, hoperand⟩ : ∃ operand : BitVec 32,
      (addSub (w.getLsbD 30) operand ((imm24 w).setWidth 32)).1 = value := by
    cases w.getLsbD 30 with
    | true => exact ⟨value + (imm24 w).setWidth 32, by rw [addSub_sub_fst, BitVec.add_sub_cancel]⟩
    | false => exact ⟨value - (imm24 w).setWidth 32, by rw [addSub_add_fst, BitVec.sub_add_cancel]⟩
  obtain ⟨s, hs⟩ : ∃ s : State, s = ⟨fun _ => operand.setWidth 64, ⟨false, false, false, false⟩⟩ :=
    ⟨_, rfl⟩
  obtain ⟨s', hrun, hreg⟩ : ∃ s', run mem [(pc, w)] s = some (.falls s') ∧ _ :=
    run_narrow h hrd pc s
  refine ⟨s, s', hrun, ?_⟩
  rw [hs] at hreg
  rw [hreg]
  show ((addSub _ ((operand.setWidth 64).setWidth 32) _).1).setWidth 64 = _
  rw [setWidth_narrow, hoperand]

end

/-! ### Accepted dispatches -/

/-- What `arm_targets` has found when it returns targets. -/
structure Accepted (view : SwitchView A) (compare guard : Located A) (body : List (Located A))
    (targets : List UInt64) where
  page : Located A
  baseAdd : Located A
  load : Located A
  targetAdd : Located A
  branch : Located A
  cmp : Word
  cond : Word
  adrp : Word
  add : Word
  ldr : Word
  sum : Word
  br : Word
  inclusive : Bool
  count : Nat
  pageAddress : UInt64
  table : UInt64
  body_eq : body = [page, baseAdd, load, targetAdd, branch]
  compare_word : armWord view.image.toLoadedImage compare = some cmp
  load_word : armWord view.image.toLoadedImage load = some ldr
  words : wordsOf view (compare :: guard :: body) = some [(compare.address.toBitVec, cmp),
    (guard.address.toBitVec, cond), (page.address.toBitVec, adrp), (baseAdd.address.toBitVec, add),
    (load.address.toBitVec, ldr), (targetAdd.address.toBitVec, sum), (branch.address.toBitVec, br)]
  dispatch : Dispatch cmp cond adrp add ldr sum br
  inclusive_eq : guardInclusive cond = some inclusive
  count_eq : caseCount (shiftedImmediate cmp) inclusive = some count
  bounded : extensionBounded view compare cmp ldr (field cmp 5 5) = true
  page_eq : checkedAddSigned (pageOf page.address) (adrpOffset adrp) = some pageAddress
  table_eq : checkedAdd pageAddress (shiftedImmediate add) = some table
  arms : List.Forall₂ (fun entry target => arm view table entry = some target) (List.range count)
    targets

theorem bits_ne_of_field_ne {w : Word} {i n : Nat} (h : field w i 5 ≠ n) (hn : n < 32) :
    bits w i 5 ≠ BitVec.ofNat 5 n := by
  intro he
  have hfield : field w i 5 = (BitVec.ofNat 5 n).toNat := congrArg BitVec.toNat he
  rw [BitVec.toNat_ofNat, Nat.mod_eq_of_lt hn] at hfield
  exact h hfield

theorem extension_register {ldr : Word}
    (h : field ldr 13 3 = 2 ∨ field ldr 13 3 = 6 ∨ field ldr 13 3 = 3) : ldr.getLsbD 14 = true := by
  have hbit : ldr.getLsbD 14 = (bits ldr 13 3).getLsbD 1 := by simp [bits]
  have hcases : ∀ b : BitVec 3, b.toNat = 2 ∨ b.toNat = 6 ∨ b.toNat = 3 → b.getLsbD 1 = true := by
    decide
  rw [hbit]
  exact hcases _ h

theorem armTargets_accepted {view : SwitchView A} {compare guard : Located A}
    {body : List (Located A)} {targets : List UInt64}
    (h : armTargets view compare guard body = some targets) :
    Nonempty (Accepted view compare guard body targets) := by
  unfold armTargets at h
  split at h
  · next page baseAdd load targetAdd branch =>
    simp only [Option.bind_eq_bind, Option.bind_eq_some_iff, Option.ite_none_left_eq_some, not_or,
      not_not] at h
    obtain ⟨cmp, hcmp, cond, hcond, ⟨hmcmp, hmcond⟩, inclusive, hinclusive, count, hcount, adrp,
      hadrp, add, hadd, ldr, hldr, sum, hsum, br, hbr, ⟨hmadrp, hmadd, hmldr, hmsum, hmbr⟩,
      ⟨hbase, hindex, hloaded, hresult, hbi, hlb, hadd0, hadd5, hldr5, hldr16, hbr5, hops⟩,
      hbounded, pageAddress, hpage, table, htable, harms⟩ := h
    have hbounded : extensionBounded view compare cmp ldr (field cmp 5 5) = true := by
      simpa using hbounded
    have hext : field ldr 13 3 = 2 ∨ field ldr 13 3 = 6 ∨ field ldr 13 3 = 3 := by
      unfold extensionBounded at hbounded
      by_contra hnot
      push Not at hnot
      simp [hnot] at hbounded
    have hops : field sum 5 5 = field ldr 0 5 ∧ field sum 16 5 = field adrp 0 5 ∨
        field sum 5 5 = field adrp 0 5 ∧ field sum 16 5 = field ldr 0 5 := by
      by_contra hnot
      exact hops (not_or.mp hnot)
    refine ⟨⟨page, baseAdd, load, targetAdd, branch, cmp, cond, adrp, add, ldr, sum, br, inclusive,
      count, pageAddress, table, rfl, hcmp, hldr, ?_, ?_, hinclusive, hcount, hbounded, hpage,
      htable, forall₂_of_mapM harms⟩⟩
    · simp [wordsOf, hcmp, hcond, hadrp, hadd, hldr, hsum, hbr]
    · have hsame : ∀ {w w' : Word} {i j : Nat}, field w i 5 = field w' j 5 →
          bits w i 5 = bits w' j 5 :=
        fun he => BitVec.eq_of_toNat_eq he
      have hdiffer : ∀ {w w' : Word} {i j : Nat}, field w i 5 ≠ field w' j 5 →
          bits w i 5 ≠ bits w' j 5 := fun hne he => hne (congrArg BitVec.toNat he)
      exact ⟨hmcmp, hmcond, hmadrp, hmadd, hmldr, extension_register hext, hmsum, hmbr,
        bits_ne_of_field_ne hindex (by decide), bits_ne_of_field_ne hloaded (by decide),
        bits_ne_of_field_ne hresult (by decide), bits_ne_of_field_ne hbase (by decide),
        hdiffer hbi, hdiffer hlb, hsame hadd0, hsame hadd5, hsame hldr5, hsame hldr16, hsame hbr5,
        hops.imp (fun ho => ⟨hsame ho.1, hsame ho.2⟩) fun ho => ⟨hsame ho.1, hsame ho.2⟩⟩
  · cases h

/-- A state in which a register has a value. -/
def stateWith (value : BitVec 64) : State := ⟨fun _ => value, ⟨false, false, false, false⟩⟩

theorem selector_of_reg {cmp : Word} {s : State} {v : Nat} (hv : v < 256)
    (h : s.reg (bits cmp 5 5) = BitVec.ofNat 64 v) : selector cmp s = v := by
  unfold selector
  rw [h]
  split
  · rw [BitVec.toNat_ofNat, Nat.mod_eq_of_lt (by omega)]
  · rw [BitVec.toNat_setWidth, BitVec.toNat_ofNat]
    omega

/-- The instruction before the compare, where there has to be one, clears what the compare does not
    bound; every selector can come out of it. -/
theorem leading_spec {view : SwitchView A} {compare guard : Located A} {body : List (Located A)}
    {targets : List UInt64} (a : Accepted view compare guard body targets) :
    ∃ lead, wordsOf view (leading view compare a.cmp a.ldr) = some lead ∧
      (∀ s, ∃ s', run (memory view) lead s = some (.falls s') ∧ Extends a.cmp a.ldr s') ∧
      ∀ v, v < 256 → ∃ s s', run (memory view) lead s = some (.falls s') ∧
        selector a.cmp s' = v := by
  have hnarrow : field a.cmp 31 1 = 0 ↔ a.cmp.getLsbD 31 = false := by
    rw [← Bool.not_eq_true, ← field_one_ne_zero_iff, not_not]
  have hempty : ¬(field a.ldr 13 3 = 3 ∧ field a.cmp 31 1 = 0) → (∀ s, Extends a.cmp a.ldr s) →
      ∃ lead, wordsOf view (leading view compare a.cmp a.ldr) = some lead ∧
        (∀ s, ∃ s', run (memory view) lead s = some (.falls s') ∧ Extends a.cmp a.ldr s') ∧
        ∀ v, v < 256 → ∃ s s', run (memory view) lead s = some (.falls s') ∧
          selector a.cmp s' = v := by
    intro hnone hextends
    refine ⟨[], ?_, fun s => ⟨s, rfl, hextends s⟩, fun v hv => ?_⟩
    · rw [leading, if_neg hnone]
      rfl
    · exact ⟨stateWith (BitVec.ofNat 64 v), _, rfl, selector_of_reg hv rfl⟩
  have hbounded := a.bounded
  unfold extensionBounded at hbounded
  dsimp only at hbounded
  split at hbounded
  · next h =>
    refine hempty (fun hboth => ?_) fun s => Or.inl ⟨h.1, hnarrow.mp h.2⟩
    rw [hboth.1] at h
    exact absurd h.1 (by decide)
  · split at hbounded
    · next h =>
      refine hempty (fun hboth => h.2 hboth.2) fun s => Or.inr ⟨h.1, fun hfalse => ?_⟩
      exact absurd (hnarrow.mpr hfalse) h.2
    · next hwide =>
      split at hbounded
      · next h =>
        have hzero : field a.cmp 31 1 = 0 := by
          by_contra hne
          exact hwide ⟨h.1, hne⟩
        obtain ⟨prior, hprior, hbounded⟩ := (Option.any_eq_true _ _).mp hbounded
        obtain ⟨word, hword, hbounded⟩ := (Option.any_eq_true _ _).mp hbounded
        obtain ⟨hmask, hrd⟩ := Bool.and_eq_true_iff.mp hbounded
        have hmask := of_decide_eq_true hmask
        have hrd : bits word 0 5 = bits a.cmp 5 5 :=
          BitVec.eq_of_toNat_eq (of_decide_eq_true hrd)
        have hne : bits word 0 5 ≠ 31#5 := by
          rw [hrd]
          exact a.dispatch.index_ne
        refine ⟨[(prior.address.toBitVec, word)], ?_, fun s => ?_, fun v hv => ?_⟩
        · rw [leading, if_pos ⟨h.1, hzero⟩, hprior]
          simp [wordsOf, hword]
        · obtain ⟨s', hrun, hreg⟩ : ∃ s', run (memory view) _ s = some (.falls s') ∧ _ :=
            run_narrow hmask hne prior.address.toBitVec s
          refine ⟨s', hrun, Or.inr ⟨h.1, fun _ => ?_⟩⟩
          rw [← hrd, hreg, setWidth_narrow]
        · obtain ⟨s, s', hrun, hreg⟩ : ∃ s s', run (memory view) _ s = some (.falls s') ∧ _ :=
            exists_run_narrow hmask hne prior.address.toBitVec (BitVec.ofNat 32 v)
          refine ⟨s, s', hrun, selector_of_reg hv ?_⟩
          rw [← hrd, hreg, setWidth_eq_ofNat, BitVec.toNat_ofNat, Nat.mod_eq_of_lt (by omega)]
      · cases hbounded

/-- The targets of an accepted dispatch are its arms: at most 256. An execution, with the
    instruction before the compare where the index needs it, takes the guard's branch when the
    selector is not below their number, and else it jumps to the target of the selector; and every
    such selector occurs. -/
theorem armTargets_spec {view : SwitchView A} {compare guard : Located A}
    {body : List (Located A)} {targets : List UInt64}
    (h : armTargets view compare guard body = some targets) :
    targets.length ≤ 256 ∧
    ∃ cmp ldr lead code, (armWord view.image.toLoadedImage compare = some cmp ∧
        (body[2]?.bind (armWord view.image.toLoadedImage)) = some ldr ∧
        wordsOf view (leading view compare cmp ldr) = some lead ∧
        wordsOf view (compare :: guard :: body) = some code) ∧
      (∀ s, ∃ s', run (memory view) lead s = some (.falls s') ∧
        (∀ target, targets[selector cmp s']? = some target →
          run (memory view) (lead ++ code) s = some (.jumps target.toBitVec)) ∧
        (targets.length ≤ selector cmp s' →
          ∃ default, run (memory view) (lead ++ code) s = some (.taken default))) ∧
      ∀ v < targets.length, ∃ s s', run (memory view) lead s = some (.falls s') ∧
        selector cmp s' = v := by
  obtain ⟨a⟩ := armTargets_accepted h
  obtain ⟨lead, hlead, hleads, hselects⟩ := leading_spec a
  have hlength : targets.length = a.count := by
    rw [← a.arms.length_eq, List.length_range]
  have hcount : a.count ≤ 256 := by
    have hcases := a.count_eq
    unfold caseCount at hcases
    dsimp only at hcases
    split at hcases
    · next hle =>
      rw [← Option.some.inj hcases]
      exact hle.2
    · cases hcases
  have hload : body[2]?.bind (armWord view.image.toLoadedImage) = some a.ldr := by
    have hthird : body[2]? = some a.load := congrArg (fun l => l[2]?) a.body_eq
    rw [hthird]
    exact a.load_word
  refine ⟨hlength ▸ hcount, a.cmp, a.ldr, lead, _, ⟨a.compare_word, hload, hlead, a.words⟩,
    fun s => ?_, fun v hv => hselects v (by omega)⟩
  obtain ⟨s', hrun, hext⟩ := hleads s
  obtain ⟨flags, hexec, hguard⟩ := exec_compare a.inclusive_eq a.count_eq s'
  have hcompare : exec (memory view) compare.address.toBitVec s'
      (.addSubImm (a.cmp.getLsbD 31) true true (imm24 a.cmp) (bits a.cmp 5 5) 31#5) =
      some (.next { s' with flags := flags }) := by
    rw [exec, hexec]
  refine ⟨s', hrun, fun target htarget => ?_, fun hle => ?_⟩
  · obtain ⟨hlt, hget⟩ := List.getElem?_eq_some_iff.mp htarget
    have harm : arm view a.table (selector a.cmp s') = some target := by
      have hentry := a.arms.get (by rw [List.length_range]; omega) hlt
      rw [List.get_eq_getElem, List.getElem_range, List.get_eq_getElem, hget] at hentry
      exact hentry
    have hpass : exec (memory view) guard.address.toBitVec { s' with flags := flags }
        (.bCond (bits a.cond 0 4) ((bits a.cond 5 19 ++ 0#2).signExtend 64)) =
        some (.next { s' with flags := flags }) := by
      rw [exec, hguard, decide_eq_false (by omega)]
      rfl
    rw [run_append _ hrun, run_next (decode_cmp a.dispatch.isCmp) hcompare,
      run_next (decode_bCond a.dispatch.isCond) hpass]
    have hsmall : selector a.cmp s' < 256 := by omega
    exact run_arms (s := { s' with flags := flags }) a.dispatch a.page_eq a.table_eq hext hsmall
      harm _ _ _ _
  · have htaken : exec (memory view) guard.address.toBitVec { s' with flags := flags }
        (.bCond (bits a.cond 0 4) ((bits a.cond 5 19 ++ 0#2).signExtend 64)) =
        some (.taken (guard.address.toBitVec + (bits a.cond 5 19 ++ 0#2).signExtend 64)) := by
      rw [exec, hguard, decide_eq_true (by omega)]
      rfl
    rw [run_append _ hrun, run_next (decode_cmp a.dispatch.isCmp) hcompare]
    exact ⟨_, run_taken (decode_bCond a.dispatch.isCond) htaken⟩

/-- `cmp w0, #1; b.hi; adrp x1; add x1, x1, #0x20; ldrsw x2, [x1, w0, uxtw #2]; add x2, x2, x1;
    br x2`, and behind a NOP the table of two arms. -/
def twoArmsWords : List (BitVec 32) :=
  [0x7100041f, 0x54000108, 0x90000001, 0x91008021, 0xb8a05822, 0x8b010042, 0xd61f0040, 0xd503201f,
    0x8, 0xc]

def twoArms : SwitchView .aarch64 where
  image :=
    { sections := [⟨0x1000, 0x28, ⟨true, false, true⟩⟩]
      externalBindings := ∅
      uninitialized := []
      mappedBytes := [twoArmsWords.flatMap fun w =>
        [0, 8, 16, 24].map fun i => UInt8.ofNat (w.extractLsb' i 8).toNat]
      decodeAt := fun _ => .error "not decoded"
      format := .elf
      entryPoint := none
      sectionFiles := [(".text", 0x28)]
      importLocations := ∅
      primaryCode := []
      deadData := []
      elfPltRanges := []
      opKinds := fun _ => [] }
  seeds := ∅
  graph := .empty

def twoArmsAt (index : Nat) : Located .aarch64 where
  address := 0x1000 + 4 * UInt64.ofNat index
  insn :=
    { nextAddress := 0x1004 + 4 * UInt64.ofNat index
      flow := .next
      directTarget := none
      memoryTarget := none
      arch := ⟨some "recognized"⟩ }

theorem armTargets_spec_twoArms : ∃ code s,
    run (memory twoArms) code s = some (.jumps 0x102c#64) := by
  have haccepts : armTargets twoArms (twoArmsAt 0) (twoArmsAt 1) [twoArmsAt 2, twoArmsAt 3,
      twoArmsAt 4, twoArmsAt 5, twoArmsAt 6] = some [0x1028, 0x102c] := by decide +kernel
  obtain ⟨-, _, _, lead, code, -, hruns, hselects⟩ := armTargets_spec haccepts
  obtain ⟨s, s', hrun, hselector⟩ := hselects 1 (by decide)
  obtain ⟨t, hrun', hjumps, -⟩ := hruns s
  obtain rfl : s' = t := by
    rw [hrun] at hrun'
    cases hrun'
    rfl
  refine ⟨lead ++ code, s, hjumps 0x102c ?_⟩
  rw [hselector]
  rfl

end Switch

end CapaX.Recovery
