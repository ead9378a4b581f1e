import CapaX.Features

/-
  The string functions of the standard library the rule grammar rests on, over lists of
  characters: trimming, the first occurrence of a separator, and the parsing of integers with
  its errors.
-/

namespace CapaX.Text

/-- `char::is_whitespace` -/
def isWhitespace (c : Char) : Bool :=
  let n := c.toNat
  decide ((9 ≤ n ∧ n ≤ 13) ∨ n ∈ [0x20, 0x85, 0xa0, 0x1680, 0x2028, 0x2029, 0x202f, 0x205f, 0x3000] ∨
    (0x2000 ≤ n ∧ n ≤ 0x200a))

/-- `str::trim` -/
def trim (s : List Char) : List Char :=
  ((s.dropWhile isWhitespace).reverse.dropWhile isWhitespace).reverse

def stripPrefix (p s : List Char) : Option (List Char) :=
  if p.isPrefixOf s then some (s.drop p.length) else none

/-- `str::split_once`: what stands before and after the first occurrence. -/
def splitOnce (sep : List Char) : List Char → Option (List Char × List Char)
  | [] => if sep.isEmpty then some ([], []) else none
  | c :: cs =>
    if sep.isPrefixOf (c :: cs) then some ([], (c :: cs).drop sep.length)
    else (splitOnce sep cs).map fun p => (c :: p.1, p.2)

/-! ## Integers -/

inductive ParseIntError where
  | empty
  | invalidDigit
  | posOverflow
  | negOverflow
  deriving DecidableEq

def ParseIntError.text : ParseIntError → String
  | empty => "cannot parse integer from empty string"
  | invalidDigit => "invalid digit found in string"
  | posOverflow => "number too large to fit in target type"
  | negOverflow => "number too small to fit in target type"

/-- `char::to_digit` -/
def toDigit (radix : Nat) (c : Char) : Option Nat := (hexDigit? c).filter fun d => decide (d < radix)

/-- The digits of a number of the given sign, from the left; the first error wins. -/
def parseDigits (lo hi : Int) (radix : Nat) (negative : Bool) :
    List Char → Int → Except ParseIntError Int
  | [], acc => .ok acc
  | c :: cs, acc =>
    match toDigit radix c with
    | none => .error .invalidDigit
    | some d =>
      let acc := if negative then acc * radix - d else acc * radix + d
      if acc < lo then .error .negOverflow
      else if hi < acc then .error .posOverflow
      else parseDigits lo hi radix negative cs acc

/-- `from_str_radix` of an integer type with the bounds `lo` and `hi`; a `-` sign is read by the
    signed types only. -/
def parseRadix (lo hi : Int) (radix : Nat) (s : List Char) : Except ParseIntError Int :=
  match s with
  | [] => .error .empty
  | ['+'] | ['-'] => .error .invalidDigit
  | '+' :: digits => parseDigits lo hi radix false digits 0
  | '-' :: digits =>
    if lo < 0 then parseDigits lo hi radix true digits 0 else .error .invalidDigit
  | digits => parseDigits lo hi radix false digits 0

/-- `i128::from_str_radix` -/
def parseI128 (radix : Nat) (s : List Char) : Except ParseIntError Int :=
  parseRadix (-2 ^ 127) (2 ^ 127 - 1) radix s

/-- `str::parse::<u8>` -/
def parseU8 (s : List Char) : Except ParseIntError Int := parseRadix 0 255 10 s

end CapaX.Text
