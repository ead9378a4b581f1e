import CapaX.Address
import CapaX.Wire.Json

/-
  The wire shape of result documents (`result_document/address.rs`,
  `result_document/feature.rs`): addresses and features as the rendered document writes them. The
  keys are attribute names, and a field without a value is left out.
-/

namespace CapaX

open Json

/-! ## Addresses -/

inductive AddressValue where
  | int (v : UInt64)
  | tuple (vs : List UInt64)

structure RdAddress where
  kind : String
  value : Option AddressValue

/-- `From<&Address> for RdAddress` -/
def RdAddress.from : Address → RdAddress
  | .absolute v => ⟨"absolute", some (.int v)⟩
  | .relative v => ⟨"relative", some (.int v)⟩
  | .file v => ⟨"file", some (.int v)⟩
  | .dnToken v => ⟨"dn token", some (.int v.toUInt64)⟩
  | .dnTokenOffset token offset =>
    ⟨"dn token offset", some (.tuple [token.toUInt64, offset.toUInt64])⟩
  | .process ppid pid => ⟨"process", some (.tuple [ppid.toUInt64, pid.toUInt64])⟩
  | .thread ppid pid tid =>
    ⟨"thread", some (.tuple [ppid.toUInt64, pid.toUInt64, tid.toUInt64])⟩
  | .call ppid pid tid id =>
    ⟨"call", some (.tuple [ppid.toUInt64, pid.toUInt64, tid.toUInt64, id])⟩
  | .noAddress => ⟨"no address", none⟩

/-- The value is written as it is, without a tag. -/
def AddressValue.toJson : AddressValue → Value
  | .int v => .number (.posInt v)
  | .tuple vs => .array (vs.map fun v => .number (.posInt v))

def RdAddress.toJson (a : RdAddress) : Value :=
  .object (("type", .string a.kind) ::
    match a.value with
    | none => []
    | some v => [("value", v.toJson)])

/-! ## Features -/

inductive RdNumber where
  | int (v : Int)
  | float (v : F64)

/-- `From<NumberValue> for RdNumber` -/
def RdNumber.from : NumberValue → RdNumber
  | .int i => .int i
  | .float f => .float f

def RdNumber.toJson : RdNumber → Option Value
  | .int i => Value.ofI128 i
  | .float f => some (.ofF64 f)

inductive RdFeature where
  | os (os : String) (description : Option String)
  | arch (arch : String) (description : Option String)
  | format (format : String) (description : Option String)
  | match_ (match_ : String) (description : Option String)
  | characteristic (characteristic : String) (description : Option String)
  | export_ (export_ : String) (description : Option String)
  | import_ (import_ : String) (description : Option String)
  | section_ (section_ : String) (description : Option String)
  | functionName (functionName : String) (description : Option String)
  | substring (substring : String) (description : Option String)
  | regex (regex : String) (description : Option String)
  | string (string : String) (description : Option String)
  | class_ (class_ : String) (description : Option String)
  | namespace_ (namespace_ : String) (description : Option String)
  | basicBlock (description : Option String)
  | api (api : String) (description : Option String)
  | property (access : Option String) (property : String) (description : Option String)
  | number (number : RdNumber) (description : Option String)
  | bytes (bytes : String) (description : Option String)
  | offset (offset : Int) (description : Option String)
  | mnemonic (mnemonic : String) (description : Option String)
  | operandNumber (index : Int) (operandNumber : RdNumber) (description : Option String)
  | operandOffset (index operandOffset : Int) (description : Option String)

/-- A digit of lowercase hexadecimal. -/
def hexDigit (d : Nat) : Char := if d < 10 then Char.ofNat ('0'.toNat + d)
  else Char.ofNat ('a'.toNat + (d - 10))

/-- `{b:02x}` -/
def hexByte (b : UInt8) : List Char := [hexDigit (b.toNat / 16), hexDigit (b.toNat % 16)]

/-- `hex_encode` -/
def hexEncode (bytes : List UInt8) : String := String.ofList (bytes.flatMap hexByte)

def ComKind.name : ComKind → String
  | .class_ => "class"
  | .interface => "interface"

/-- `RdFeature::from_engine` -/
def RdFeature.fromEngine (feature : Feature) (description : Option String) :
    Except String RdFeature :=
  match feature with
  | .api v => .ok (.api v description)
  | .string (.plain v) => .ok (.string v description)
  | .string (.substring v) => .ok (.substring v description)
  | .string (.regex re) => .ok (.regex re.raw description)
  | .bytes v => .ok (.bytes (hexEncode v) description)
  | .number v => .ok (.number (.from v) description)
  | .offset v => .ok (.offset v description)
  | .operandNumber index v => .ok (.operandNumber index (.from v) description)
  | .operandOffset index v => .ok (.operandOffset index v description)
  | .mnemonic v => .ok (.mnemonic v description)
  | .characteristic v => .ok (.characteristic v description)
  | .section_ v => .ok (.section_ v description)
  | .import_ v => .ok (.import_ v description)
  | .export_ v => .ok (.export_ v description)
  | .functionName v => .ok (.functionName v description)
  | .class_ v => .ok (.class_ v description)
  | .namespace_ v => .ok (.namespace_ v description)
  | .property name access => .ok (.property (access.map Access.asStr) name description)
  | .os v => .ok (.os v description)
  | .arch v => .ok (.arch v description)
  | .format v => .ok (.format v description)
  | .matchedRule v => .ok (.match_ v description)
  | .basicBlock => .ok (.basicBlock description)
  | .com kind _ => .error s!"cannot render a `com/{kind.name}` feature directly -- COM features must be expanded before matching"

/-- The object of a tag, its fields, and the description when there is one. -/
def tagged (tag : String) (fields : List (String × Value)) (description : Option String) : Value :=
  .object (("type", .string tag) :: fields ++
    match description with
    | none => []
    | some d => [("description", .string d)])

/-- The object `RdFeature` serializes to; `none` for an integer the library cannot hold. -/
def RdFeature.toJson : RdFeature → Option Value
  | .os name d => some (tagged "os" [("os", .string name)] d)
  | .arch name d => some (tagged "arch" [("arch", .string name)] d)
  | .format name d => some (tagged "format" [("format", .string name)] d)
  | .match_ name d => some (tagged "match" [("match", .string name)] d)
  | .characteristic value d =>
    some (tagged "characteristic" [("characteristic", .string value)] d)
  | .export_ name d => some (tagged "export" [("export", .string name)] d)
  | .import_ name d => some (tagged "import" [("import_", .string name)] d)
  | .section_ name d => some (tagged "section" [("section", .string name)] d)
  | .functionName name d => some (tagged "function name" [("function_name", .string name)] d)
  | .substring text d => some (tagged "substring" [("substring", .string text)] d)
  | .regex text d => some (tagged "regex" [("regex", .string text)] d)
  | .string text d => some (tagged "string" [("string", .string text)] d)
  | .class_ name d => some (tagged "class" [("class_", .string name)] d)
  | .namespace_ name d => some (tagged "namespace" [("namespace", .string name)] d)
  | .basicBlock d => some (tagged "basic block" [] d)
  | .api name d => some (tagged "api" [("api", .string name)] d)
  | .property access name d =>
    some (tagged "property"
      ((access.toList.map fun a => ("access", .string a)) ++ [("property", .string name)]) d)
  | .number value d => do
    let value ← value.toJson
    return tagged "number" [("number", value)] d
  | .bytes hex d => some (tagged "bytes" [("bytes", .string hex)] d)
  | .offset value d => do
    let value ← Value.ofI128 value
    return tagged "offset" [("offset", value)] d
  | .mnemonic text d => some (tagged "mnemonic" [("mnemonic", .string text)] d)
  | .operandNumber index value d => do
    let index ← Value.ofI128 index
    let value ← value.toJson
    return tagged "operand number" [("index", index), ("operand_number", value)] d
  | .operandOffset index value d => do
    let index ← Value.ofI128 index
    let value ← Value.ofI128 value
    return tagged "operand offset" [("index", index), ("operand_offset", value)] d

end CapaX
