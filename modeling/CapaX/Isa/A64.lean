import Mathlib.Data.BitVec

/-
  A part of the A64 instruction set: words are decoded by their fields and executed on registers,
  flags and a memory that is only read. ADD and SUB with an immediate (CMP among them), B.cond,
  ADRP, ADD of a shifted register, LDRSW with a register offset, and BR. Every other word is left
  undecoded.

  A straight-line sequence (`run`) ends by falling through, by a taken conditional branch, or by an
  indirect jump. `bits_of_mask` reads the fields of a word off a masked comparison.
-/

namespace A64

abbrev Word := BitVec 32

abbrev Reg := BitVec 5

/-- The `len` bits of a word from bit `lo` on. -/
abbrev bits (w : Word) (lo len : Nat) : BitVec len := w.extractLsb' lo len

/-! ## Instructions -/

inductive Instr
  /-- ADD, ADDS, SUB, SUBS (immediate); `wide` for X registers -/
  | addSubImm (wide sub setFlags : Bool) (imm : BitVec 24) (rn rd : Reg)
  | bCond (cond : BitVec 4) (offset : BitVec 64)
  | adrp (offset : BitVec 64) (rd : Reg)
  /-- ADD of X registers, the second one shifted left -/
  | addShifted (rm : Reg) (amount : BitVec 6) (rn rd : Reg)
  /-- LDRSW with a register offset; `scaled` for an index of words -/
  | ldrsw (rm : Reg) (option : BitVec 3) (scaled : Bool) (rn rt : Reg)
  | br (rn : Reg)
  deriving DecidableEq

/-- The immediate of 12 bits, shifted by 12 when bit 22 says so. -/
def imm24 (w : Word) : BitVec 24 :=
  if w.getLsbD 22 then bits w 10 12 ++ 0#12 else 0#12 ++ bits w 10 12

def decodeImmediate (w : Word) : Option Instr :=
  if bits w 23 3 = 0b010#3 then
    some (.addSubImm (w.getLsbD 31) (w.getLsbD 30) (w.getLsbD 29) (imm24 w) (bits w 5 5)
      (bits w 0 5))
  else if bits w 24 2 = 0b00#2 ∧ w.getLsbD 31 = true then
    some (.adrp ((bits w 5 19 ++ bits w 29 2).signExtend 64 <<< 12) (bits w 0 5))
  else none

def decodeBranch (w : Word) : Option Instr :=
  if bits w 24 8 = 0b01010100#8 ∧ w.getLsbD 4 = false then
    some (.bCond (bits w 0 4) ((bits w 5 19 ++ 0#2).signExtend 64))
  else if bits w 10 22 = 0b1101011000011111000000#22 ∧ bits w 0 5 = 0#5 then some (.br (bits w 5 5))
  else none

def decodeRegister (w : Word) : Option Instr :=
  if bits w 21 11 = 0b10001011000#11 then
    some (.addShifted (bits w 16 5) (bits w 10 6) (bits w 5 5) (bits w 0 5))
  else none

def decodeLoad (w : Word) : Option Instr :=
  if bits w 21 11 = 0b10111000101#11 ∧ bits w 10 2 = 0b10#2 ∧ w.getLsbD 14 = true then
    some (.ldrsw (bits w 16 5) (bits w 13 3) (w.getLsbD 12) (bits w 5 5) (bits w 0 5))
  else none

/-- The class of an instruction is in its bits 25 to 28. -/
def decode (w : Word) : Option Instr :=
  if bits w 26 3 = 0b100#3 then decodeImmediate w
  else if bits w 26 3 = 0b101#3 then decodeBranch w
  else if bits w 25 3 = 0b101#3 then decodeRegister w
  else if bits w 27 1 = 1#1 ∧ bits w 25 1 = 0#1 then decodeLoad w
  else none

/-! ## Execution -/

structure Flags where
  n : Bool
  z : Bool
  c : Bool
  v : Bool

/-- Register 31 of `reg` is the stack pointer; the zero register is no state. -/
structure State where
  reg : Reg → BitVec 64
  flags : Flags

namespace State

def readZ (s : State) (r : Reg) : BitVec 64 := if r = 31#5 then 0 else s.reg r

def write (s : State) (r : Reg) (value : BitVec 64) : State :=
  { s with reg := fun r' => if r' = r then value else s.reg r' }

def writeZ (s : State) (r : Reg) (value : BitVec 64) : State :=
  if r = 31#5 then s else s.write r value

@[simp] theorem reg_write_self (s : State) (r : Reg) (value : BitVec 64) :
    (s.write r value).reg r = value := if_pos rfl

@[simp] theorem reg_write_of_ne {s : State} {r r' : Reg} {value : BitVec 64} (h : r' ≠ r) :
    (s.write r value).reg r' = s.reg r' := if_neg h

theorem readZ_of_ne {s : State} {r : Reg} (h : r ≠ 31#5) : s.readZ r = s.reg r := if_neg h

theorem writeZ_of_ne {s : State} {r : Reg} {value : BitVec 64} (h : r ≠ 31#5) :
    s.writeZ r value = s.write r value := if_neg h

end State

def addWithCarry {n : Nat} (x y : BitVec n) (carry : Bool) : BitVec n × Flags :=
  let unsigned := x.toNat + y.toNat + carry.toNat
  let signed := x.toInt + y.toInt + carry.toInt
  let result := BitVec.ofNat n unsigned
  (result, ⟨result.msb, result == 0#n, result.toNat != unsigned, result.toInt != signed⟩)

/-- The operation of ADD or SUB on `n` bits. -/
def addSub {n : Nat} (sub : Bool) (x y : BitVec n) : BitVec n × Flags :=
  if sub then addWithCarry x (~~~y) true else addWithCarry x y false

def conditionHolds (flags : Flags) (cond : BitVec 4) : Bool :=
  let base :=
    match (cond >>> 1).toNat with
    | 0 => flags.z
    | 1 => flags.c
    | 2 => flags.n
    | 3 => flags.v
    | 4 => flags.c && !flags.z
    | 5 => flags.n == flags.v
    | 6 => flags.n == flags.v && !flags.z
    | _ => true
  if cond.getLsbD 0 && cond != 0b1111#4 then !base else base

/-- The index of a register offset, before it is scaled. -/
def extendReg (value : BitVec 64) (option : BitVec 3) : BitVec 64 :=
  match option.toNat with
  | 2 => (value.setWidth 32).setWidth 64
  | 6 => (value.setWidth 32).signExtend 64
  | _ => value

inductive Step
  | next (s : State)
  | taken (target : BitVec 64)
  | jumps (target : BitVec 64)

def execAddSubImm (wide sub setFlags : Bool) (imm : BitVec 24) (rn rd : Reg) (s : State) : State :=
  let out : BitVec 64 × Flags :=
    if wide then addSub sub (s.reg rn) (imm.setWidth 64)
    else
      let narrow := addSub sub ((s.reg rn).setWidth 32) (imm.setWidth 32)
      (narrow.1.setWidth 64, narrow.2)
  if setFlags then { s.writeZ rd out.1 with flags := out.2 } else s.write rd out.1

section

variable (mem : BitVec 64 → Option (BitVec 32))

def exec (pc : BitVec 64) (s : State) : Instr → Option Step
  | .addSubImm wide sub setFlags imm rn rd =>
    some (.next (execAddSubImm wide sub setFlags imm rn rd s))
  | .bCond cond offset =>
    some (if conditionHolds s.flags cond then .taken (pc + offset) else .next s)
  | .adrp offset rd => some (.next (s.writeZ rd ((pc &&& ~~~0xfff#64) + offset)))
  | .addShifted rm amount rn rd =>
    some (.next (s.writeZ rd (s.readZ rn + s.readZ rm <<< amount.toNat)))
  | .ldrsw rm option scaled rn rt => do
    let index := extendReg (s.readZ rm) option
    let word ← mem (s.reg rn + index <<< if scaled then 2 else 0)
    some (.next (s.writeZ rt (word.signExtend 64)))
  | .br rn => some (.jumps (s.readZ rn))

/-- How a straight-line sequence ends. -/
inductive Exit
  | falls (s : State)
  | taken (target : BitVec 64)
  | jumps (target : BitVec 64)

/-- Run the words at their addresses, one after the other. -/
def run : List (BitVec 64 × Word) → State → Option Exit
  | [], s => some (.falls s)
  | (pc, word) :: rest, s => do
    let instr ← decode word
    match ← exec mem pc s instr with
    | .next s' => run rest s'
    | .taken target => some (.taken target)
    | .jumps target => some (.jumps target)

variable {mem} {pc target : BitVec 64} {word : Word} {rest : List (BitVec 64 × Word)}
  {instr : Instr} {s s' : State}

theorem run_next (hdecode : decode word = some instr)
    (hexec : exec mem pc s instr = some (.next s')) :
    run mem ((pc, word) :: rest) s = run mem rest s' := by
  simp [run, hdecode, hexec]

theorem run_taken (hdecode : decode word = some instr)
    (hexec : exec mem pc s instr = some (.taken target)) :
    run mem ((pc, word) :: rest) s = some (.taken target) := by
  simp [run, hdecode, hexec]

theorem run_jumps (hdecode : decode word = some instr)
    (hexec : exec mem pc s instr = some (.jumps target)) :
    run mem ((pc, word) :: rest) s = some (.jumps target) := by
  simp [run, hdecode, hexec]

variable (mem) in
theorem run_append {lead code : List (BitVec 64 × Word)} {s s' : State}
    (h : run mem lead s = some (.falls s')) : run mem (lead ++ code) s = run mem code s' := by
  induction lead generalizing s with
  | nil =>
    obtain rfl : s = s' := by simpa [run] using h
    rfl
  | cons first lead ih =>
    obtain ⟨pc, word⟩ := first
    rw [List.cons_append, run]
    rw [run] at h
    cases hdecode : decode word with
    | none => simp [hdecode] at h
    | some instr =>
      rw [hdecode] at h
      cases hexec : exec mem pc s instr with
      | none => simp [hexec] at h
      | some step =>
        cases step with
        | next t =>
          simp only [Option.bind_eq_bind, Option.bind_some, hexec] at h ⊢
          exact ih h
        | taken target => simp [hexec] at h
        | jumps target => simp [hexec] at h

end

/-! ## Fields of a masked word -/

/-- A mask that covers a field gives its bits. -/
theorem bits_of_mask {w mask value : Word} (h : w &&& mask = value) {lo len : Nat}
    (hmask : mask.extractLsb' lo len = BitVec.allOnes len) :
    bits w lo len = value.extractLsb' lo len := by
  rw [← h, BitVec.extractLsb'_and, hmask, BitVec.and_allOnes]

theorem getLsbD_of_mask {w mask value : Word} (h : w &&& mask = value) {i : Nat}
    (hmask : mask.getLsbD i = true) : w.getLsbD i = value.getLsbD i := by
  rw [← h, BitVec.getLsbD_and, hmask, Bool.and_true]

/-! ## Comparing -/

section

variable {n : Nat} (x y : BitVec n)

theorem addSub_sub_fst : (addSub true x y).1 = x - y := by
  have hy := y.isLt
  apply BitVec.eq_of_toNat_eq
  show (x.toNat + (~~~y).toNat + 1) % 2 ^ n = _
  rw [BitVec.toNat_not, BitVec.toNat_sub]
  congr 1
  omega

theorem addSub_add_fst : (addSub false x y).1 = x + y := by
  apply BitVec.eq_of_toNat_eq
  show (x.toNat + y.toNat + 0) % 2 ^ n = _
  rw [BitVec.toNat_add]
  rfl

theorem addSub_sub_c : (addSub true x y).2.c = decide (y.toNat ≤ x.toNat) := by
  have hx := x.isLt
  have hy := y.isLt
  show ((x.toNat + (~~~y).toNat + 1) % 2 ^ n != x.toNat + (~~~y).toNat + 1) = _
  rw [BitVec.toNat_not]
  by_cases hle : y.toNat ≤ x.toNat
  · have hover : x.toNat + (2 ^ n - 1 - y.toNat) + 1 = x.toNat - y.toNat + 2 ^ n := by omega
    have hmod : (x.toNat + (2 ^ n - 1 - y.toNat) + 1) % 2 ^ n = x.toNat - y.toNat := by
      rw [hover, Nat.add_mod_right, Nat.mod_eq_of_lt (by omega)]
    rw [hmod, decide_eq_true hle, bne_iff_ne]
    omega
  · have hmod : (x.toNat + (2 ^ n - 1 - y.toNat) + 1) % 2 ^ n =
        x.toNat + (2 ^ n - 1 - y.toNat) + 1 := Nat.mod_eq_of_lt (by omega)
    rw [hmod, decide_eq_false hle]
    exact bne_self_eq_false _

theorem addSub_sub_z : (addSub true x y).2.z = decide (x = y) := by
  have hz : (addSub true x y).2.z = ((addSub true x y).1 == 0#n) := rfl
  rw [hz, addSub_sub_fst, Bool.eq_iff_iff, beq_iff_eq, decide_eq_true_iff, BitVec.sub_eq_iff_eq_add,
    BitVec.zero_add]

/-- HI: the first operand is greater. -/
theorem conditionHolds_hi :
    conditionHolds (addSub true x y).2 8#4 = decide (y.toNat < x.toNat) := by
  show (((addSub true x y).2.c && !(addSub true x y).2.z) : Bool) = _
  rw [addSub_sub_c, addSub_sub_z, Bool.eq_iff_iff, Bool.and_eq_true, decide_eq_true_iff,
    Bool.not_eq_true', decide_eq_false_iff_not, decide_eq_true_iff, ← BitVec.toNat_inj]
  omega

/-- HS: the first operand is not less. -/
theorem conditionHolds_hs : conditionHolds (addSub true x y).2 2#4 = decide (y.toNat ≤ x.toNat) :=
  addSub_sub_c x y

end

end A64
