import Mathlib.Data.BitVec

/-
  The integer instructions of x86 that have no memory operand: moves, arithmetic, logic, shifts,
  exchanges and the conditional ones, with LEA. Registers are typed by their width; a write of 32
  bits clears the upper half, a narrower one keeps what surrounds it. What the manual leaves open
  of the flags is taken from a parameter (`undef`).

  A 32-bit processor is the same but for its registers, of which only the lower halves are there
  (`Instr.Fits`).
-/

namespace X86

/-- The general registers of `w` bits; the high bytes are those of the first four. -/
inductive Reg : Nat → Type
  | low (n : Fin 16) : Reg 8
  | high (n : Fin 4) : Reg 8
  | word (n : Fin 16) : Reg 16
  | dword (n : Fin 16) : Reg 32
  | qword (n : Fin 16) : Reg 64

namespace Reg

variable {w : Nat}

/-- The register of 64 bits it is part of. -/
def full : Reg w → Fin 16
  | low n | word n | dword n | qword n => n
  | high n => n.castLE (by decide)

/-- Its lowest bit there. -/
def lsb : Reg w → Nat
  | high _ => 8
  | low _ | word _ | dword _ | qword _ => 0

end Reg

structure Flags where
  zero : Bool
  sign : Bool
  carry : Bool
  overflow : Bool
  parity : Bool
  deriving DecidableEq

/-- The registers and flags. -/
structure Cpu where
  reg : Fin 16 → BitVec 64
  flags : Flags

namespace Cpu

variable {w : Nat}

def read (s : Cpu) (r : Reg w) : BitVec w := (s.reg r.full).extractLsb' r.lsb w

/-- What a register of 64 bits holds after a part of it is written. -/
def merge (old : BitVec 64) (r : Reg w) (value : BitVec w) : BitVec 64 :=
  if 32 ≤ w then value.setWidth 64
  else (old &&& ~~~(((BitVec.allOnes w).setWidth 64) <<< r.lsb)) ||| (value.setWidth 64) <<< r.lsb

def write (s : Cpu) (r : Reg w) (value : BitVec w) : Cpu :=
  { s with reg := Function.update s.reg r.full (merge (s.reg r.full) r value) }

theorem getLsbD_merge (old : BitVec 64) (r : Reg w) (value : BitVec w) {i : Nat} (hi : i < 64) :
    (merge old r value).getLsbD i = if 32 ≤ w then value.getLsbD i
      else if r.lsb ≤ i ∧ i < r.lsb + w then value.getLsbD (i - r.lsb) else old.getLsbD i := by
  unfold merge
  by_cases hw : 32 ≤ w
  · rw [if_pos hw, if_pos hw, BitVec.getLsbD_setWidth, decide_eq_true hi, Bool.true_and]
  · rw [if_neg hw, if_neg hw]
    have hsmall : ∀ j, w ≤ j → value.getLsbD j = false := fun j hj => BitVec.getLsbD_of_ge _ _ hj
    simp only [BitVec.getLsbD_or, BitVec.getLsbD_and, BitVec.getLsbD_not, BitVec.getLsbD_shiftLeft,
      BitVec.getLsbD_setWidth, BitVec.getLsbD_allOnes]
    grind

end Cpu

/-! ## Conditions -/

inductive Condition
  | o | no | b | ae | e | ne | be | a | s | ns | p | np | l | ge | le | g
  deriving DecidableEq

def Condition.holds (f : Flags) : Condition → Bool
  | o => f.overflow
  | no => !f.overflow
  | b => f.carry
  | ae => !f.carry
  | e => f.zero
  | ne => !f.zero
  | be => f.carry || f.zero
  | a => !(f.carry || f.zero)
  | s => f.sign
  | ns => !f.sign
  | p => f.parity
  | np => !f.parity
  | l => f.sign ^^ f.overflow
  | ge => !(f.sign ^^ f.overflow)
  | le => f.zero || (f.sign ^^ f.overflow)
  | g => !(f.zero || (f.sign ^^ f.overflow))

/-! ## Instructions -/

/-- A second operand. -/
inductive Src (w : Nat)
  | reg (r : Reg w)
  | imm (value : BitVec w)

/-- An address of `w` bits. -/
inductive Address (w : Nat)
  | indexed (base index : Option (Reg w)) (scale : Nat) (displacement : BitVec w)
  | relative (target : BitVec w)

inductive Binary
  | add | sub | and | or | xor
  deriving DecidableEq

inductive Unary
  | inc | dec | neg | not
  deriving DecidableEq

inductive Shift
  | shl | shr | sar
  deriving DecidableEq

inductive Instr
  | mov {w : Nat} (dst : Reg w) (src : Src w)
  | movzx {w v : Nat} (dst : Reg w) (src : Reg v)
  /-- MOVSX and MOVSXD -/
  | movsx {w v : Nat} (dst : Reg w) (src : Reg v)
  | lea {w v : Nat} (dst : Reg w) (address : Address v)
  | binary {w : Nat} (op : Binary) (dst : Reg w) (src : Src w)
  | cmp {w : Nat} (dst : Reg w) (src : Src w)
  | test {w : Nat} (dst : Reg w) (src : Src w)
  | unary {w : Nat} (op : Unary) (dst : Reg w)
  | shift {w : Nat} (op : Shift) (dst : Reg w) (count : Src 8)
  | imul {w : Nat} (dst : Reg w) (src : Reg w)
  /-- IMUL with three operands -/
  | imulImm {w : Nat} (dst : Reg w) (src : Reg w) (imm : BitVec w)
  | xchg {w : Nat} (dst src : Reg w)
  | xadd {w : Nat} (dst src : Reg w)
  | setcc (c : Condition) (dst : Reg 8)
  | cmovcc {w : Nat} (c : Condition) (dst src : Reg w)

/-- No operand is wider than `bits`. -/
def Instr.Fits (bits : Nat) : Instr → Prop
  | @mov w _ _ | @binary w _ _ _ | @cmp w _ _ | @test w _ _ | @unary w _ _ | @shift w _ _ _
  | @imul w _ _ | @imulImm w _ _ _ | @xchg w _ _ | @xadd w _ _ | @cmovcc w _ _ _ => w ≤ bits
  | @movzx w v _ _ | @movsx w v _ _ | @lea w v _ _ => w ≤ bits ∧ v ≤ bits
  | setcc _ _ => 8 ≤ bits

/-! ## Flags -/

section

variable {w : Nat}

/-- The number of ones among the low eight bits is even. -/
def parity (value : BitVec w) : Bool :=
  (value.setWidth 8).cpop.toNat % 2 == 0

/-- The flags that a value sets, with a carry and an overflow. -/
def valueFlags (value : BitVec w) (carry overflow : Bool) : Flags where
  zero := value == 0
  sign := value.msb
  carry := carry
  overflow := overflow
  parity := parity value

def Binary.value (a b : BitVec w) : Binary → BitVec w
  | add => a + b
  | sub => a - b
  | and => a &&& b
  | or => a ||| b
  | xor => a ^^^ b

def Binary.flags (a b : BitVec w) : Binary → Flags
  | add => valueFlags (a + b) (a.uaddOverflow b) (a.saddOverflow b)
  | sub => valueFlags (a - b) (a.usubOverflow b) (a.ssubOverflow b)
  | and => valueFlags (a &&& b) false false
  | or => valueFlags (a ||| b) false false
  | xor => valueFlags (a ^^^ b) false false

def Unary.value (a : BitVec w) : Unary → BitVec w
  | inc => a + 1
  | dec => a - 1
  | neg => -a
  | not => ~~~a

/-- INC and DEC keep the carry, NOT keeps all. -/
def Unary.flags (a : BitVec w) (old : Flags) : Unary → Flags
  | inc => valueFlags (a + 1) old.carry (a.saddOverflow 1)
  | dec => valueFlags (a - 1) old.carry (a.ssubOverflow 1)
  | neg => valueFlags (-a) (a != 0) a.negOverflow
  | not => old

/-- The bits of a count that a shift of `w` bits takes. -/
def shiftCount (w : Nat) (count : BitVec 8) : Nat := count.toNat % if w = 64 then 64 else 32

def Shift.value (a : BitVec w) (count : Nat) : Shift → BitVec w
  | shl => a <<< count
  | shr => a >>> count
  | sar => a.sshiftRight count

/-- The last bit that is shifted out. -/
def Shift.carry (a : BitVec w) (count : Nat) (undef : Flags) : Shift → Bool
  | shl => if count < w then a.getLsbD (w - count) else undef.carry
  | shr => if count < w then a.getLsbD (count - 1) else undef.carry
  | sar => if count < w then a.getLsbD (count - 1) else a.msb

def Shift.overflow (a : BitVec w) (count : Nat) (undef : Flags) (op : Shift) : Bool :=
  if count = 1 then
    match op with
    | shl => (op.value a count).msb ^^ op.carry a count undef
    | shr => a.msb
    | sar => false
  else undef.overflow

/-- A shift by 0 keeps the flags. -/
def Shift.flags (a : BitVec w) (count : Nat) (undef old : Flags) (op : Shift) : Flags :=
  if count = 0 then old
  else valueFlags (op.value a count) (op.carry a count undef) (op.overflow a count undef)

/-- A product that does not fit is carried over; the other flags are open. -/
def mulFlags (a b : BitVec w) (undef : Flags) : Flags :=
  { undef with carry := a.smulOverflow b, overflow := a.smulOverflow b }

end

/-! ## Execution -/

namespace Cpu

variable {w : Nat} (s : Cpu)

def source : Src w → BitVec w
  | .reg r => s.read r
  | .imm value => value

def optional (r : Option (Reg w)) : BitVec w := (r.map s.read).getD 0

def effective : Address w → BitVec w
  | .indexed base index scale displacement =>
    s.optional base + s.optional index * BitVec.ofNat w scale + displacement
  | .relative target => target

def withFlags (flags : Flags) : Cpu := { s with flags := flags }

end Cpu

/-- One instruction; `undef` is what the flags get that the manual leaves open. -/
def exec (undef : Flags) (s : Cpu) : Instr → Cpu
  | .mov dst src => s.write dst (s.source src)
  | @Instr.movzx w _ dst src => s.write dst ((s.read src).setWidth w)
  | @Instr.movsx w _ dst src => s.write dst ((s.read src).signExtend w)
  | @Instr.lea w _ dst address => s.write dst ((s.effective address).setWidth w)
  | .binary op dst src =>
    (s.write dst (op.value (s.read dst) (s.source src))).withFlags
      (op.flags (s.read dst) (s.source src))
  | .cmp dst src => s.withFlags (Binary.sub.flags (s.read dst) (s.source src))
  | .test dst src => s.withFlags (Binary.and.flags (s.read dst) (s.source src))
  | .unary op dst =>
    (s.write dst (op.value (s.read dst))).withFlags (op.flags (s.read dst) s.flags)
  | @Instr.shift w op dst count =>
    let n := shiftCount w (s.source count)
    (s.write dst (op.value (s.read dst) n)).withFlags (op.flags (s.read dst) n undef s.flags)
  | .imul dst src =>
    (s.write dst (s.read dst * s.read src)).withFlags (mulFlags (s.read dst) (s.read src) undef)
  | .imulImm dst src imm =>
    (s.write dst (s.read src * imm)).withFlags (mulFlags (s.read src) imm undef)
  | .xchg dst src => (s.write dst (s.read src)).write src (s.read dst)
  | .xadd dst src =>
    ((s.write src (s.read dst)).write dst (s.read dst + s.read src)).withFlags
      (Binary.add.flags (s.read dst) (s.read src))
  | .setcc c dst => s.write dst (if c.holds s.flags then 1 else 0)
  | .cmovcc c dst src => s.write dst (if c.holds s.flags then s.read src else s.read dst)

end X86
