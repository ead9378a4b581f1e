import CapaX.Features

/-
  JSON values as the third-party library hands them over (`serde_json::Value`): what the rendered
  documents are written to and what freeze documents are read from. The debug text that error
  messages embed is the library's own: `DebugJson`.
-/

namespace CapaX

/-- The value is a number, neither infinite nor a NaN. -/
def F64.IsFinite (x : F64) : Prop := x.exponent ≠ 2047

instance (x : F64) : Decidable x.IsFinite := inferInstanceAs (Decidable (x.exponent ≠ 2047))

namespace Json

/-- `serde_json::Number`: an integer is stored unsigned unless it is negative. -/
inductive Number where
  | posInt (n : UInt64)
  | negInt (n : Int64)
  | float (v : F64)
  deriving DecidableEq

namespace Number

/-- `as_i64` -/
def asI64 : Number → Option Int
  | posInt n => if n.toNat < 2 ^ 63 then some n.toNat else none
  | negInt n => some n.toInt
  | float _ => none

/-- `as_u64` -/
def asU64 : Number → Option UInt64
  | posInt n => some n
  | negInt _ | float _ => none

/-- `as_f64` of a number that is no integer. -/
def asF64 : Number → Option F64
  | float v => some v
  | posInt _ | negInt _ => none

/-- The number of an integer between `i64::MIN` and `u64::MAX`. -/
def ofInt (n : Int) : Number :=
  if 0 ≤ n then posInt (UInt64.ofNat n.toNat) else negInt (Int64.ofInt n)

end Number

inductive Value where
  | null
  | bool (b : Bool)
  | number (n : Number)
  | string (s : String)
  | array (items : List Value)
  | object (entries : List (String × Value))

namespace Value

/-- An integer is a number of the library only between `i64::MIN` and `u64::MAX`. -/
def ofI128 (n : Int) : Option Value :=
  if -2 ^ 63 ≤ n ∧ n < 2 ^ 64 then some (number (.ofInt n)) else none

/-- A float that is no number is written as `null`. -/
def ofF64 (v : F64) : Value := if v.IsFinite then number (.float v) else null

/-- `as_u64`, `as_i64`, `as_f64`, `as_str` and `as_array` -/
def asU64 : Value → Option UInt64
  | number n => n.asU64
  | _ => none

@[inherit_doc asU64] def asI64 : Value → Option Int
  | number n => n.asI64
  | _ => none

@[inherit_doc asU64] def asF64 : Value → Option F64
  | number n => n.asF64
  | _ => none

@[inherit_doc asU64] def asStr : Value → Option String
  | string s => some s
  | _ => none

@[inherit_doc asU64] def asArray : Value → Option (List Value)
  | array items => some items
  | _ => none

/-- `as_i64`, and `as_u64` where that fails. -/
def asInt (v : Value) : Option Int :=
  match v.asI64 with
  | some n => some n
  | none => v.asU64.map fun n => n.toNat

end Value

/-- The entry of a key in an object. -/
def get (entries : List (String × Value)) (key : String) : Option Value :=
  (entries.find? fun e => decide (e.1 = key)).map (·.2)

/-- What a derived reader of a record takes: the entries of an object, or the items of an array as
    its fields in order. -/
def entriesOf (fields : List String) : Value → Option (List (String × Value))
  | .object entries => some entries
  | .array items => if items.length ≤ fields.length then some (fields.zip items) else none
  | _ => none

/-- The `{:?}` of a value. -/
class DebugJson where
  debug : Value → String

/-! ## Integers -/

/-- An integer reads as itself, signed where that fits and unsigned otherwise. -/
theorem Value.asInt_ofInt {n : Int} (hmin : -2 ^ 63 ≤ n) (hmax : n < 2 ^ 64) :
    (Value.number (.ofInt n)).asInt = some n := by
  unfold Number.ofInt
  split
  · next hnonneg =>
    have htoNat : (UInt64.ofNat n.toNat).toNat = n.toNat := by
      rw [UInt64.toNat_ofNat']
      exact Nat.mod_eq_of_lt (by omega)
    by_cases hsmall : n < 9223372036854775808
    · simp [Value.asInt, Value.asI64, Number.asI64, htoNat, hsmall, hnonneg]
    · simp [Value.asInt, Value.asI64, Value.asU64, Number.asI64, Number.asU64, htoNat, hsmall,
        hnonneg]
  · next hneg =>
    have htoInt : (Int64.ofInt n).toInt = n := Int64.toInt_ofInt_of_le (by omega) (by omega)
    simp [Value.asInt, Value.asI64, Number.asI64, htoInt]

end Json

end CapaX
