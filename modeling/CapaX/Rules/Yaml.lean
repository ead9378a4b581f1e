import CapaX.Features
import Mathlib.Order.Lattice

/-
  YAML values as the third-party parser hands them over (`serde_yaml::Value`). A mapping keeps
  its entries in document order. The debug and number texts that error messages embed come from
  the parser's own formatting, which is outside the repository: `YamlFormat`.
-/

namespace CapaX.Yaml

inductive Number where
  | posInt (n : UInt64)
  | negInt (n : Int64)
  | float (v : F64)
  deriving DecidableEq

namespace Number

/-- `as_i64` -/
def asI64 : Number → Option Int
  | posInt n => if n.toNat < 2 ^ 63 then some n.toNat else none
  | negInt n => some n.toInt
  | float _ => none

/-- `as_u64` -/
def asU64 : Number → Option Nat
  | posInt n => some n.toNat
  | negInt _ | float _ => none

end Number

inductive Value where
  | null
  | bool (b : Bool)
  | number (n : Number)
  | string (s : String)
  | sequence (items : List Value)
  | mapping (entries : List (Value × Value))
  | tagged (tag : String) (value : Value)

/-- A mapping, its entries in document order. -/
abbrev Mapping := List (Value × Value)

def Value.isStr (key : String) : Value → Bool
  | string s => decide (s = key)
  | _ => false

theorem Value.isStr_iff {key : String} {v : Value} : v.isStr key = true ↔ v = .string key := by
  cases v <;> simp [isStr]

/-- `Mapping::get` of a string key. -/
def Mapping.get (m : Mapping) (key : String) : Option Value :=
  (m.find? fun e => e.1.isStr key).map (·.2)

def Mapping.containsKey (m : Mapping) (key : String) : Bool := m.any fun e => e.1.isStr key

/-- `as_bool`: it looks through tags. -/
def Value.asBool : Value → Option Bool
  | bool b => some b
  | tagged _ value => value.asBool
  | _ => none

@[inherit_doc asBool] def Value.asStr : Value → Option String
  | string s => some s
  | tagged _ value => value.asStr
  | _ => none

/-- The `{:?}` of a value and of a string, and the `{}` of a number and of a float. -/
class Format where
  debug : Value → String
  debugStr : String → String
  display : Number → String
  displayF64 : F64 → String

/-- A formatting that prints nothing, for documents that are accepted. -/
@[reducible] def Format.blank : Format := ⟨fun _ => "", fun _ => "", fun _ => "", fun _ => ""⟩

/-! ## Depth -/

mutual

/-- The nesting of sequences and mappings in a value. -/
def Value.depth : Value → Nat
  | .sequence items => listDepth items + 1
  | .mapping entries => entriesDepth entries + 1
  | .tagged _ value => value.depth + 1
  | .null | .bool _ | .number _ | .string _ => 0

def listDepth : List Value → Nat
  | [] => 0
  | v :: vs => max v.depth (listDepth vs)

def entriesDepth : List (Value × Value) → Nat
  | [] => 0
  | (k, v) :: es => max (max k.depth v.depth) (entriesDepth es)

end

theorem depth_le_listDepth {v : Value} {vs : List Value} (h : v ∈ vs) :
    v.depth ≤ listDepth vs := by
  induction vs with
  | nil => exact absurd h List.not_mem_nil
  | cons w ws ih =>
    unfold listDepth
    rcases List.mem_cons.mp h with rfl | h
    · exact le_max_left _ _
    · exact (ih h).trans (le_max_right _ _)

theorem depth_le_entriesDepth {e : Value × Value} {es : List (Value × Value)} (h : e ∈ es) :
    e.2.depth ≤ entriesDepth es := by
  induction es with
  | nil => exact absurd h List.not_mem_nil
  | cons w ws ih =>
    unfold entriesDepth
    rcases List.mem_cons.mp h with rfl | h
    · exact (le_max_right _ _).trans (le_max_left _ _)
    · exact (ih h).trans (le_max_right _ _)

end CapaX.Yaml
