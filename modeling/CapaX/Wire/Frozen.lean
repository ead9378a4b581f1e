import CapaX.Control.Except
import CapaX.Wire.Rendered

/-
  Reading addresses and features of a freeze document (`freeze.rs`): `RawAddress` and `RawFeature`
  are what the JSON library makes of an object, and `toCapa` checks and converts them.
-/

namespace CapaX

open Json

inductive FreezeError where
  | invalid (message : String)
  deriving DecidableEq, Repr

/-! ## Addresses -/

structure RawAddress where
  kind : String
  value : Value

/-- A record with a `type`; a missing `value` is `null`. -/
def RawAddress.ofJson (v : Value) : Option RawAddress := do
  let entries ← entriesOf ["type", "value"] v
  let kind ← (← get entries "type").asStr
  return ⟨kind, (get entries "value").getD .null⟩

def orInvalid {α : Type} (o : Option α) (message : String) : Except FreezeError α :=
  match o with
  | some a => .ok a
  | none => .error (.invalid message)

/-- `u32::try_from` of a `u64` -/
def toU32? (n : UInt64) : Option UInt32 := if n.toNat < 2 ^ 32 then some n.toUInt32 else none

/-- `as_u64` -/
def asU64Field (v : Value) (ctx : String) : Except FreezeError UInt64 :=
  orInvalid v.asU64 s!"{ctx}: expected a non-negative integer"

def u32Element (message : String) (item : Value) : Except FreezeError UInt32 :=
  orInvalid (item.asU64.bind toU32?) message

/-- `as_u32_tuple` -/
def asU32Tuple (n : Nat) (v : Value) (ctx : String) : Except FreezeError (List UInt32) := do
  let arr ← orInvalid (v.asArray.filter fun a => decide (a.length = n))
    s!"{ctx}: expected a {n}-tuple"
  arr.mapM (u32Element s!"{ctx}: tuple element out of range")

/-- The `call` arm of `to_capa`: the last of the four elements is no `u32`. -/
def callToCapa (v : Value) : Except FreezeError Address :=
  match v.asArray with
  | some [ppid, pid, tid, id] => do
    let ppid ← u32Element "call address: tuple element out of range" ppid
    let pid ← u32Element "call address: tuple element out of range" pid
    let tid ← u32Element "call address: tuple element out of range" tid
    let id ← orInvalid id.asU64 "call address: id out of range"
    return .call ppid pid tid id
  | _ => .error (.invalid "call address: expected a 4-tuple")

/-- `RawAddress::to_capa` -/
def RawAddress.toCapa (a : RawAddress) : Except FreezeError Address :=
  match a.kind with
  | "absolute" => Address.absolute <$> asU64Field a.value "absolute address"
  | "relative" => Address.relative <$> asU64Field a.value "relative address"
  | "file" => Address.file <$> asU64Field a.value "file address"
  | "dn token" => do
    let v ← asU64Field a.value "dn token address"
    let v ← orInvalid (toU32? v) "dn token value out of range"
    return .dnToken v
  | "dn token offset" => do
    let t ← asU32Tuple 2 a.value "dn token offset address"
    return .dnTokenOffset (t.getD 0 0) (t.getD 1 0)
  | "process" => do
    let t ← asU32Tuple 2 a.value "process address"
    return .process (t.getD 0 0) (t.getD 1 0)
  | "thread" => do
    let t ← asU32Tuple 3 a.value "thread address"
    return .thread (t.getD 0 0) (t.getD 1 0) (t.getD 2 0)
  | "call" => callToCapa a.value
  | "no address" => .ok .noAddress
  | other => .error (.invalid s!"unknown address type: {other}")

/-! ## Features -/

structure RawFeature where
  kind : String
  rest : List (String × Value)

/-- An object with a `type`, and its other entries. -/
def RawFeature.ofJson : Value → Option RawFeature
  | .object entries => do
    let kind ← (← get entries "type").asStr
    return ⟨kind, entries.filter fun e => decide (e.1 ≠ "type")⟩
  | _ => none

namespace RawFeature

variable (f : RawFeature)

def field (key : String) : Except FreezeError Value :=
  orInvalid (get f.rest key) s!"feature {f.kind}: missing {key}"

def strField (key : String) : Except FreezeError String := do
  let v ← f.field key
  orInvalid v.asStr s!"feature {f.kind}: {key} must be a string"

def intField (key : String) : Except FreezeError Int := do
  let v ← f.field key
  orInvalid v.asInt s!"feature {f.kind}: {key} must be an integer"

def numberField (key : String) : Except FreezeError NumberValue := do
  let v ← f.field key
  match v.asInt with
  | some n => return .int n
  | none => NumberValue.float <$> orInvalid v.asF64 s!"feature {f.kind}: {key} must be a number"

def intOffset (key : String) : Except FreezeError Int := do
  let n ← f.intField key
  if -2 ^ 63 ≤ n ∧ n < 2 ^ 63 then return n
  else .error (.invalid s!"{key} out of range: {n}")

def operandIndex : Except FreezeError Nat := do
  let n ← f.intField "index"
  if n < 0 ∨ maxOperandIndex < n then .error (.invalid s!"operand index out of range: {n}")
  else return n.toNat

variable [DebugJson]

/-- `check_description` -/
def checkDescription : Except FreezeError Unit :=
  match get f.rest "description" with
  | none | some .null | some (.string _) => .ok ()
  | some other => .error (.invalid s!"feature {f.kind}: description must be a string or null, got {DebugJson.debug other}")

/-- The `access` of a property. -/
def access : Except FreezeError (Option Access) :=
  match get f.rest "access" with
  | none | some .null => .ok none
  | some (.string s) => some <$> orInvalid (Access.parse s) s!"property: unknown access {s}"
  | some other => .error (.invalid s!"property: access must be a string or null, got {DebugJson.debug other}")

variable [RegexBackend]

/-- The arms of `to_capa`. -/
def toCapaOfKind : Except FreezeError Feature :=
  match f.kind with
  | "os" => Feature.os <$> f.strField "os"
  | "arch" => Feature.arch <$> f.strField "arch"
  | "format" => Feature.format <$> f.strField "format"
  | "match" => Feature.matchedRule <$> f.strField "match"
  | "characteristic" => Feature.characteristic <$> f.strField "characteristic"
  | "export" => Feature.export_ <$> f.strField "export"
  | "import" => Feature.import_ <$> f.strField "import_"
  | "section" => Feature.section_ <$> f.strField "section"
  | "function name" => Feature.functionName <$> f.strField "function_name"
  | "substring" => (fun s => Feature.string (.substring s)) <$> f.strField "substring"
  | "regex" => do
    let raw ← f.strField "regex"
    let re ← (CompiledRegex.compile raw).mapError FreezeError.invalid
    return .string (.regex re)
  | "string" => (fun s => Feature.string (.plain s)) <$> f.strField "string"
  | "class" => Feature.class_ <$> f.strField "class_"
  | "namespace" => Feature.namespace_ <$> f.strField "namespace"
  | "basic block" => .ok .basicBlock
  | "api" => Feature.api <$> f.strField "api"
  | "property" => do
    let name ← f.strField "property"
    let access ← f.access
    return .property name access
  | "number" => Feature.number <$> f.numberField "number"
  | "bytes" => do
    let s ← f.strField "bytes"
    let bytes ← orInvalid (hexDecode s.toList) s!"bytes: not a valid hex string: {s}"
    return .bytes bytes
  | "offset" => Feature.offset <$> f.intOffset "offset"
  | "mnemonic" => Feature.mnemonic <$> f.strField "mnemonic"
  | "operand number" => do
    let index ← f.operandIndex
    let v ← f.numberField "operand_number"
    return .operandNumber index v
  | "operand offset" => do
    let index ← f.operandIndex
    let v ← f.intOffset "operand_offset"
    return .operandOffset index v
  | other => .error (.invalid s!"unknown freeze feature type: {other}")

/-- `RawFeature::to_capa` -/
def toCapa : Except FreezeError Feature := do
  f.checkDescription
  f.toCapaOfKind

end RawFeature

end CapaX
