import Mathlib.Data.Int.Basic
import Mathlib.Data.List.Basic
import Mathlib.Tactic.NormNum

/-
  The feature model (`features.rs`). Two features are compared by `==`, which is the derived
  structural equality except on numbers (a whole-valued float equals the integer it denotes, and
  a NaN equals nothing) and on regular expressions (the raw text decides). It is symmetric and
  transitive (`PartialEquivBEq Feature`), and on bytes, os and match features it is
  equality of values (`beq_eq_decide`).

  The two regex crates are outside the repository: `RegexBackend` says whether a pattern
  compiles and whether it matches somewhere in a text.
-/

namespace CapaX

/-- `MAX_BYTES_FEATURE_SIZE` -/
def maxBytesFeatureSize : Nat := 0x100

/-- `MAX_OPERAND_COUNT` -/
def maxOperandCount : Nat := 5

/-- `MAX_OPERAND_INDEX` -/
def maxOperandIndex : Nat := maxOperandCount - 1

/-- The value of a hexadecimal digit, `char::to_digit(16)`. -/
def hexDigit? (c : Char) : Option Nat :=
  if '0' ≤ c ∧ c ≤ '9' then some (c.toNat - '0'.toNat)
  else if 'a' ≤ c ∧ c ≤ 'f' then some (c.toNat - 'a'.toNat + 10)
  else if 'A' ≤ c ∧ c ≤ 'F' then some (c.toNat - 'A'.toNat + 10)
  else none

/-- `hex_decode`: two digits a byte; an odd length or another character is an error. -/
def hexDecode : List Char → Option (List UInt8)
  | [] => some []
  | [_] => none
  | hi :: lo :: rest => do
    let hi ← hexDigit? hi
    let lo ← hexDigit? lo
    let out ← hexDecode rest
    return UInt8.ofNat (hi * 16 + lo) :: out

inductive Access where
  | read
  | write
  deriving DecidableEq, Repr

namespace Access

def asStr : Access → String
  | read => "read"
  | write => "write"

def parse (s : String) : Option Access :=
  if s = "read" then some read else if s = "write" then some write else none

end Access

inductive ComKind where
  | class_
  | interface
  deriving DecidableEq, Repr

def ComKind.parse (s : String) : Option ComKind :=
  if s = "class" then some .class_ else if s = "interface" then some .interface else none

/-! ## Numbers -/

/-- An `f64`, by its IEEE 754 bits. -/
structure F64 where
  bits : UInt64
  deriving DecidableEq, Repr

namespace F64

def exponent (x : F64) : Nat := x.bits.toNat / 2 ^ 52 % 2 ^ 11

def mantissa (x : F64) : Nat := x.bits.toNat % 2 ^ 52

def negative (x : F64) : Bool := decide (2 ^ 63 ≤ x.bits.toNat)

def isNaN (x : F64) : Bool := decide (x.exponent = 2047 ∧ x.mantissa ≠ 0)

def isZero (x : F64) : Bool := decide (x.exponent = 0 ∧ x.mantissa = 0)

/-- IEEE equality: a NaN equals nothing, the two zeros are equal. -/
def eq (x y : F64) : Bool :=
  !x.isNaN && !y.isNaN && (decide (x.bits = y.bits) || (x.isZero && y.isZero))

def significand (x : F64) : Nat := if x.exponent = 0 then x.mantissa else x.mantissa + 2 ^ 52

def scale (x : F64) : Nat := max 1 x.exponent

/-- The absolute value `significand * 2 ^ (scale - 1075)` of a finite float, when it is whole. -/
def magnitude? (x : F64) : Option Nat :=
  if x.exponent = 2047 then none
  else if 1075 ≤ x.scale then some (x.significand * 2 ^ (x.scale - 1075))
  else if x.significand % 2 ^ (1075 - x.scale) = 0 then
    some (x.significand / 2 ^ (1075 - x.scale))
  else none

/-- The integer a float denotes when its fractional part is zero. -/
def whole? (x : F64) : Option Int :=
  x.magnitude?.map fun m => if x.negative then -(m : Int) else m

theorem eq_symm {x y : F64} (h : x.eq y = true) : y.eq x = true := by
  simp only [eq, Bool.and_eq_true, Bool.or_eq_true, decide_eq_true_eq] at h ⊢
  tauto

theorem eq_trans {x y z : F64} (h : x.eq y = true) (h' : y.eq z = true) : x.eq z = true := by
  simp only [eq, Bool.and_eq_true, Bool.or_eq_true, decide_eq_true_eq] at h h' ⊢
  obtain ⟨⟨hx, hy⟩, hxy⟩ := h
  obtain ⟨⟨_, hz⟩, hyz⟩ := h'
  refine ⟨⟨hx, hz⟩, ?_⟩
  rcases hxy with hxy | ⟨hx0, hy0⟩
  · obtain rfl : x = y := by cases x; cases y; simp_all
    exact hyz
  · rcases hyz with hyz | ⟨_, hz0⟩
    · obtain rfl : y = z := by cases y; cases z; simp_all
      exact Or.inr ⟨hx0, hy0⟩
    · exact Or.inr ⟨hx0, hz0⟩

theorem whole?_isZero {x : F64} (h : x.isZero = true) : x.whole? = some 0 := by
  simp only [isZero, decide_eq_true_eq] at h
  have hs : x.significand = 0 := by rw [significand, if_pos h.1, h.2]
  have hc : x.scale = 1 := by rw [scale, h.1]; rfl
  have hm : x.magnitude? = some 0 := by
    rw [magnitude?, if_neg (by omega), if_neg (by omega), hs, Nat.zero_mod, if_pos rfl,
      Nat.zero_div]
  simp [whole?, hm]

/-- Equal floats denote the same integer, if any. -/
theorem whole?_eq {x y : F64} (h : x.eq y = true) : x.whole? = y.whole? := by
  simp only [eq, Bool.and_eq_true, Bool.or_eq_true, decide_eq_true_eq] at h
  rcases h.2 with hb | ⟨hx, hy⟩
  · obtain rfl : x = y := by cases x; cases y; simp_all
    rfl
  · rw [whole?_isZero hx, whole?_isZero hy]

end F64

/-- A number: an `i128`, or the `f64` of a .NET immediate. -/
inductive NumberValue where
  | int (v : Int)
  | float (v : F64)
  deriving DecidableEq, Repr

namespace NumberValue

/-- `as_whole_int`: a whole float within `i128::MIN as f64 ..= i128::MAX as f64` is cast, and the
    cast of `2 ^ 127` saturates. -/
def asWholeInt : NumberValue → Option Int
  | int v => some v
  | float v =>
    match v.whole? with
    | none => none
    | some w => if -2 ^ 127 ≤ w ∧ w ≤ 2 ^ 127 then some (min w (2 ^ 127 - 1)) else none

/-- `PartialEq for NumberValue` -/
def eq (a b : NumberValue) : Bool :=
  match a.asWholeInt, b.asWholeInt with
  | some x, some y => decide (x = y)
  | _, _ =>
    match a, b with
    | float x, float y => x.eq y
    | _, _ => false

instance : BEq NumberValue := ⟨eq⟩

/-- Equality is equality of the integers denoted, or of two floats that denote none. -/
theorem beq_iff {a b : NumberValue} : (a == b) = true ↔
    a.asWholeInt = b.asWholeInt ∧
      (a.asWholeInt = none → ∃ x y, a = float x ∧ b = float y ∧ x.eq y = true) := by
  change eq a b = true ↔ _
  unfold eq
  cases ha : a.asWholeInt with
  | none =>
    cases hb : b.asWholeInt with
    | none => cases a <;> cases b <;> simp_all [asWholeInt]
    | some y =>
      simp only [reduceCtorEq, false_and, iff_false]
      cases a with
      | int v => simp [asWholeInt] at ha
      | float v =>
        cases b with
        | int w => simp
        | float w =>
          intro h
          have : (float v).asWholeInt = (float w).asWholeInt := by
            simp only [asWholeInt, F64.whole?_eq h]
          rw [ha, hb] at this
          cases this
  | some x =>
    cases hb : b.asWholeInt with
    | some y => simp
    | none =>
      simp only [reduceCtorEq, false_and, iff_false]
      cases a with
      | int v => simp
      | float v =>
        cases b with
        | int w => simp [asWholeInt] at hb
        | float w =>
          intro h
          have : (float v).asWholeInt = (float w).asWholeInt := by
            simp only [asWholeInt, F64.whole?_eq h]
          rw [ha, hb] at this
          cases this

instance : PartialEquivBEq NumberValue where
  symm {a b} h := by
    rw [beq_iff] at h ⊢
    refine ⟨h.1.symm, fun hn => ?_⟩
    obtain ⟨x, y, rfl, rfl, he⟩ := h.2 (h.1.trans hn)
    exact ⟨y, x, rfl, rfl, F64.eq_symm he⟩
  trans {a b c} h h' := by
    rw [beq_iff] at h h' ⊢
    refine ⟨h.1.trans h'.1, fun hn => ?_⟩
    obtain ⟨x, y, rfl, rfl, he⟩ := h.2 hn
    obtain ⟨y', z, hy, rfl, he'⟩ := h'.2 (h.1 ▸ hn)
    cases hy
    exact ⟨x, z, rfl, rfl, F64.eq_trans he he'⟩

end NumberValue

/-! ## Regular expressions -/

/-- The two regex crates: `compiles` is `none` when one of them accepts the pattern and the
    last error otherwise; `search` is `is_match` of the accepted pattern. -/
class RegexBackend where
  compiles : String → Option String
  search : String → String → Bool

/-- An engine that accepts no pattern, for rules without regular expressions. -/
@[reducible] def RegexBackend.empty : RegexBackend := ⟨fun _ => some "not supported", fun _ _ => false⟩

/-- A compiled expression: the raw rule text, and the pattern its engine was built from. -/
structure CompiledRegex where
  raw : String
  engine : String
  deriving DecidableEq, Repr

namespace CompiledRegex

instance : BEq CompiledRegex := ⟨fun a b => decide (a.raw = b.raw)⟩

/-- `strip_suffix` on a list of characters. -/
def stripSuffix (suffix l : List Char) : Option (List Char) :=
  if suffix.isSuffixOf l then some (l.take (l.length - suffix.length)) else none

/-- The pattern between the delimiters and whether the `i` flag is set. -/
def delimited (raw : String) : Option (List Char × Bool) :=
  match raw.toList with
  | '/' :: rest =>
    match stripSuffix ['/', 'i'] rest with
    | some p => some (p, true)
    | none => (stripSuffix ['/'] rest).map fun p => (p, false)
  | _ => none

/-- `CompiledRegex::compile` -/
def compile [RegexBackend] (raw : String) : Except String CompiledRegex :=
  match delimited raw with
  | none => .error s!"invalid regular expression syntax: {raw}"
  | some (pat, ignorecase) =>
    let pattern := "(?s" ++ (if ignorecase then "i" else "") ++ ")" ++ String.ofList pat
    match RegexBackend.compiles pattern with
    | none => .ok ⟨raw, pattern⟩
    | some e => .error
        s!"invalid regular expression: {raw} it should use Python syntax, try it at https://pythex.org ({e})"

def isMatch [RegexBackend] (re : CompiledRegex) (text : String) : Bool :=
  RegexBackend.search re.engine text

end CompiledRegex

/-! ## Features -/

inductive StringFeature where
  | plain (v : String)
  | substring (v : String)
  | regex (re : CompiledRegex)
  deriving DecidableEq, Repr

inductive Feature where
  | api (v : String)
  | string (v : StringFeature)
  | bytes (v : List UInt8)
  | number (v : NumberValue)
  | offset (v : Int)
  | operandNumber (index : Nat) (v : NumberValue)
  | operandOffset (index : Nat) (v : Int)
  | mnemonic (v : String)
  | characteristic (v : String)
  | section_ (v : String)
  | import_ (v : String)
  | export_ (v : String)
  | functionName (v : String)
  | class_ (v : String)
  | namespace_ (v : String)
  | property (name : String) (access : Option Access)
  | os (v : String)
  | arch (v : String)
  | format (v : String)
  | com (kind : ComKind) (name : String)
  | matchedRule (v : String)
  | basicBlock
  deriving DecidableEq, Repr

namespace Feature

/-- The derived equality, through the equality of numbers and of regular expressions. -/
def eq (a b : Feature) : Bool :=
  match a, b with
  | number x, number y => x == y
  | operandNumber i x, operandNumber j y => decide (i = j) && x == y
  | string (.regex x), string (.regex y) => x == y
  | a, b => decide (a = b)

instance (priority := high) : BEq Feature := ⟨eq⟩

/-- The features `==` does not compare as values. -/
def comparesLoosely : Feature → Bool
  | number _ | operandNumber _ _ | string (.regex _) => true
  | _ => false

theorem beq_iff {a b : Feature} : (a == b) = true ↔
    (∃ x y, a = number x ∧ b = number y ∧ (x == y) = true) ∨
    (∃ i x y, a = operandNumber i x ∧ b = operandNumber i y ∧ (x == y) = true) ∨
    (∃ x y, a = string (.regex x) ∧ b = string (.regex y) ∧ x.raw = y.raw) ∨
    a.comparesLoosely = false ∧ a = b := by
  change eq a b = true ↔ _
  unfold eq
  split
  · simp [comparesLoosely]
  · simp only [Bool.and_eq_true, decide_eq_true_eq, reduceCtorEq, false_and, exists_false,
      comparesLoosely, Bool.true_eq_false, or_false, false_or, operandNumber.injEq]
    exact ⟨fun ⟨hi, hx⟩ => ⟨_, _, _, ⟨rfl, rfl⟩, ⟨hi.symm, rfl⟩, hx⟩, fun ⟨_, _, _, h1, h2, hx⟩ =>
      ⟨h1.1.trans h2.1.symm, by rw [h1.2, h2.2]; exact hx⟩⟩
  · simp [comparesLoosely, BEq.beq]
  · next hn ho hr =>
    rw [decide_eq_true_eq]
    constructor
    · rintro rfl
      refine Or.inr (Or.inr (Or.inr ⟨?_, rfl⟩))
      cases a with
      | number x => exact (hn x x rfl rfl).elim
      | operandNumber i x => exact (ho i x i x rfl rfl).elim
      | string v =>
        cases v with
        | regex x => exact (hr x x rfl rfl).elim
        | _ => rfl
      | _ => rfl
    · rintro (⟨x, y, rfl, rfl, _⟩ | ⟨i, x, y, rfl, rfl, _⟩ | ⟨x, y, rfl, rfl, _⟩ | ⟨_, h⟩)
      · exact (hn x y rfl rfl).elim
      · exact (ho i x i y rfl rfl).elim
      · exact (hr x y rfl rfl).elim
      · exact h

instance : PartialEquivBEq Feature where
  symm {a b} h := by
    rw [beq_iff] at h ⊢
    rcases h with ⟨x, y, rfl, rfl, h⟩ | ⟨i, x, y, rfl, rfl, h⟩ | ⟨x, y, rfl, rfl, h⟩ | ⟨h, rfl⟩
    · exact Or.inl ⟨y, x, rfl, rfl, BEq.symm h⟩
    · exact Or.inr (Or.inl ⟨i, y, x, rfl, rfl, BEq.symm h⟩)
    · exact Or.inr (Or.inr (Or.inl ⟨y, x, rfl, rfl, h.symm⟩))
    · exact Or.inr (Or.inr (Or.inr ⟨h, rfl⟩))
  trans {a b c} h h' := by
    rw [beq_iff] at h h' ⊢
    rcases h with ⟨x, y, rfl, rfl, h⟩ | ⟨i, x, y, rfl, rfl, h⟩ | ⟨x, y, rfl, rfl, h⟩ | ⟨h, rfl⟩
    · rcases h' with ⟨_, z, hy, rfl, h'⟩ | ⟨_, _, _, hy, _⟩ | ⟨_, _, hy, _⟩ | ⟨hl, _⟩
      · cases hy
        exact Or.inl ⟨x, z, rfl, rfl, BEq.trans h h'⟩
      · cases hy
      · cases hy
      · cases hl
    · rcases h' with ⟨_, _, hy, _⟩ | ⟨_, _, z, hy, rfl, h'⟩ | ⟨_, _, hy, _⟩ | ⟨hl, _⟩
      · cases hy
      · cases hy
        exact Or.inr (Or.inl ⟨i, x, z, rfl, rfl, BEq.trans h h'⟩)
      · cases hy
      · cases hl
    · rcases h' with ⟨_, _, hy, _⟩ | ⟨_, _, _, hy, _⟩ | ⟨_, z, hy, rfl, h'⟩ | ⟨hl, _⟩
      · cases hy
      · cases hy
      · cases hy
        exact Or.inr (Or.inr (Or.inl ⟨x, z, rfl, rfl, h.trans h'⟩))
      · cases hl
    · exact h'

/-- Away from numbers and regular expressions, equality is equality of values. -/
theorem beq_eq_decide {a b : Feature} (h : a.comparesLoosely = false) :
    (a == b) = decide (a = b) := by
  refine Bool.eq_iff_iff.mpr ?_
  rw [beq_iff, decide_eq_true_eq]
  constructor
  · rintro (⟨x, y, rfl, _⟩ | ⟨i, x, y, rfl, _⟩ | ⟨x, y, rfl, _⟩ | ⟨_, h'⟩)
    · cases h
    · cases h
    · cases h
    · exact h'
  · exact fun h' => Or.inr (Or.inr (Or.inr ⟨h, h'⟩))

theorem eq_of_beq {a b : Feature} (h : a.comparesLoosely = false) (hb : (a == b) = true) :
    a = b := by
  rw [beq_eq_decide h] at hb
  exact of_decide_eq_true hb

theorem beq_self {a : Feature} (h : a.comparesLoosely = false) : (a == a) = true := by
  rw [beq_eq_decide h]
  exact decide_eq_true rfl

theorem matchedRule_beq_iff {v : String} {f : Feature} :
    (matchedRule v == f) = true ↔ f = matchedRule v := by
  rw [beq_eq_decide rfl, decide_eq_true_eq]
  exact eq_comm

end Feature

end CapaX
