import CapaX.Collections.IndexMap
import CapaX.Features
import CapaX.Graphs.Chain

/-
  The names of managed types and members (`extract/dotnet/names.rs`). Two loops walk chains that
  stand in the file: the enclosing classes of a nested `TypeDef`, through the map of the
  `NestedClass` table, and the resolution scopes of a `TypeRef`. Nothing bounds either of them, so
  the model gives them fuel and `none` stands for a loop that is still going. The loops end on
  every metadata without a cycle among these links, and on no other (`resolves_iff`).
-/

namespace CapaX.Dotnet

open Collections Graphs CapaX

/-! ## Metadata -/

/-- The metadata tables the columns below refer to. -/
inductive Table where
  | module
  | typeRef
  | typeDef
  | field
  | methodDef
  | memberRef
  | event
  | property
  | moduleRef
  | typeSpec
  | assemblyRef
  deriving DecidableEq, Repr

/-- `table_name_2_index` -/
def Table.index : Table → Nat
  | module => 0
  | typeRef => 1
  | typeDef => 2
  | field => 4
  | methodDef => 6
  | memberRef => 10
  | event => 20
  | property => 23
  | moduleRef => 26
  | typeSpec => 27
  | assemblyRef => 35

/-- A table and a one-based row of it, as read from the file. -/
structure CodedIndex where
  table : Table
  rowIndex : Nat
  deriving DecidableEq, Repr

structure TypeDef where
  typeName : String
  typeNamespace : String
  fieldList : List CodedIndex
  methodList : List CodedIndex

structure TypeRef where
  resolutionScope : CodedIndex
  typeName : String
  typeNamespace : String

structure MemberRef where
  class_ : CodedIndex
  name : String

inductive SemanticsAttr where
  | setter
  | getter
  | other
  deriving DecidableEq, Repr

structure MethodSemantics where
  semantics : List SemanticsAttr
  method : CodedIndex
  association : CodedIndex

/-- The tables the names are read from; a table may be missing. -/
structure ClrData where
  typeDef : Option (List TypeDef)
  typeRef : Option (List TypeRef)
  /-- the nested class and the class that encloses it -/
  nestedClass : Option (List (Nat × Nat))
  memberRef : Option (List MemberRef)
  /-- the names of the methods -/
  methodDef : Option (List String)
  /-- the names of the fields -/
  field : Option (List String)
  methodSemantics : Option (List MethodSemantics)

/-- `get_table_row_by_rid`: rows count from one, and zero is a null reference. -/
def getTableRowByRid {α : Type} (table : Option (List α)) (rid : Nat) : Option α :=
  if rid = 0 then none else table.bind fun rows => rows[rid - 1]?

/-- `calculate_dotnet_token_value` -/
def calculateTokenValue (table rid : Nat) : UInt32 :=
  ((UInt32.ofNat table &&& 0xFF) <<< 24) ||| (UInt32.ofNat rid &&& 0x00FFFFFF)

structure DnType where
  token : UInt32
  access : Option Access
  namespace_ : String
  class_ : List String
  member : String
  deriving DecidableEq, Repr

/-- Constructors lose their leading dot. -/
def DnType.new (token : UInt32) (class_ : List String) (namespace_ member : String)
    (access : Option Access) : DnType :=
  let member :=
    if member = ".ctor" then "ctor" else if member = ".cctor" then "cctor" else member
  ⟨token, access, namespace_, class_, member⟩

/-! ## Chains of names -/

/-- Nested row to enclosing row. -/
def nestedClassTable (net : ClrData) : IndexMap Nat Nat :=
  (net.nestedClass.getD []).foldl (fun map row => map.insert row.1 row.2) ∅

/-- What stands behind the loop of `resolve_nested_typedef_name`. -/
def outermostTypedef (net : ClrData) (typedef : TypeDef) (cursor : Nat) (names : List String) :
    String × List String :=
  match getTableRowByRid net.typeDef cursor with
  | none => (typedef.typeNamespace, names.reverse)
  | some row => (row.typeNamespace, (names ++ [row.typeName]).reverse)

/-- The loop of `resolve_nested_typedef_name`. The cursor is looked up in `nested` at the top and
    again at the bottom of a turn, with one answer. -/
def typedefLoop (net : ClrData) (nested : IndexMap Nat Nat) (typedef : TypeDef) :
    Nat → Nat → List String → Option (String × List String)
  | 0, _, _ => none
  | fuel + 1, cursor, names =>
    match nested.get? cursor with
    | none => some (outermostTypedef net typedef cursor names)
    | some next =>
      match getTableRowByRid net.typeDef cursor with
      | none => some (typedef.typeNamespace, names.reverse)
      | some row => typedefLoop net nested typedef fuel next (names ++ [row.typeName])

def resolveNestedTypedefName (fuel : Nat) (net : ClrData) (nested : IndexMap Nat Nat) (rid : Nat)
    (typedef : TypeDef) : Option (String × List String) :=
  match nested.get? rid with
  | none => some (typedef.typeNamespace, [typedef.typeName])
  | some first => typedefLoop net nested typedef fuel first [typedef.typeName]

/-- The loop of `resolve_nested_typeref_name`. -/
def typerefLoop (net : ClrData) (typeref : TypeRef) :
    Nat → TypeRef → String → List String → Option (String × List String)
  | 0, _, _, _ => none
  | fuel + 1, row, name, names =>
    if row.resolutionScope.table = .typeRef then
      match getTableRowByRid net.typeRef row.resolutionScope.rowIndex with
      | none => some (typeref.typeNamespace, (names ++ [name]).reverse)
      | some r => typerefLoop net typeref fuel r row.typeName (names ++ [name])
    else some (row.typeNamespace, (names ++ [row.typeName]).reverse)

def resolveNestedTyperefName (fuel : Nat) (net : ClrData) (rid : Nat) (typeref : TypeRef) :
    Option (String × List String) :=
  if typeref.resolutionScope.table = .typeRef then
    match getTableRowByRid net.typeRef rid with
    | none => some (typeref.typeNamespace, [typeref.typeName])
    | some row => typerefLoop net typeref fuel row typeref.typeName []
  else some (typeref.typeNamespace, [typeref.typeName])

/-! ## Names of types and members -/

/-- A loop over the rows of a table, each of which pushes some values. -/
def pushAll {α β : Type} (rows : List α) (push : α → Nat → Option (List β)) : Option (List β) :=
  (rows.zipIdx.mapM fun row => push row.1 row.2).map List.flatten

/-- `types`: every `TypeDef`, then every `TypeRef`. -/
def types (fuel : Nat) (net : ClrData) : Option (List DnType) := do
  let nested := nestedClassTable net
  let defs ← pushAll (net.typeDef.getD []) fun row i => do
    let rid := i + 1
    let (namespace_, class_) ← resolveNestedTypedefName fuel net nested rid row
    return [DnType.new (calculateTokenValue Table.typeDef.index rid) class_ namespace_ "" none]
  let refs ← pushAll (net.typeRef.getD []) fun row i => do
    let rid := i + 1
    let (namespace_, class_) ←
      resolveNestedTyperefName fuel net row.resolutionScope.rowIndex row
    return [DnType.new (calculateTokenValue Table.typeRef.index rid) class_ namespace_ "" none]
  return defs ++ refs

/-- The accessor prefix of a member name, and the name behind it. -/
def importAccess (name : String) : Option Access × String :=
  if name.startsWith "get_" then (some .read, (name.drop 4).toString)
  else if name.startsWith "set_" then (some .write, (name.drop 4).toString)
  else (none, name)

/-- `managed_imports`: the `MemberRef` rows whose class is a `TypeRef` of the table. -/
def managedImports (fuel : Nat) (net : ClrData) : Option (List DnType) :=
  pushAll (net.memberRef.getD []) fun row i =>
    if row.class_.table = .typeRef then
      match getTableRowByRid net.typeRef row.class_.rowIndex with
      | none => return []
      | some typeref => do
        let (access, name) := importAccess row.name
        let (namespace_, class_) ← resolveNestedTyperefName fuel net row.class_.rowIndex typeref
        return [DnType.new (calculateTokenValue Table.memberRef.index (i + 1)) class_ namespace_
          name access]
    else return []

/-- `methoddef_property_accessors`: the accessor methods of properties. -/
def methoddefPropertyAccessors (net : ClrData) : IndexMap UInt32 Access :=
  (net.methodSemantics.getD []).foldl (fun map row =>
    if row.association.rowIndex = 0 ∨ row.association.table = .event then map
    else if row.method.rowIndex = 0 then map
    else
      let token := calculateTokenValue Table.methodDef.index row.method.rowIndex
      if row.semantics.contains .setter then map.insert token .write
      else if row.semantics.contains .getter then map.insert token .read
      else map) ∅

/-- The members of every type: the entries of one of its lists that are rows of the member table,
    each with the name of the type. -/
def membersOf (fuel : Nat) (net : ClrData) (list : TypeDef → List CodedIndex)
    (names : List String) (member : CodedIndex → String → List String → String → DnType) :
    Option (List DnType) :=
  let nested := nestedClassTable net
  pushAll (net.typeDef.getD []) fun typedef i =>
    pushAll (list typedef) fun entry _ =>
      match getTableRowByRid (some names) entry.rowIndex with
      | none => return []
      | some name => do
        let (namespace_, class_) ← resolveNestedTypedefName fuel net nested (i + 1) typedef
        return [member entry name class_ namespace_]

/-- `managed_methods` -/
def managedMethods (fuel : Nat) (net : ClrData) : Option (List DnType) :=
  let accessors := methoddefPropertyAccessors net
  match net.methodDef with
  | none => some []
  | some methods =>
    membersOf fuel net (·.methodList) methods fun entry name class_ namespace_ =>
      let token := calculateTokenValue Table.methodDef.index entry.rowIndex
      let name := if name.startsWith "get_" ∨ name.startsWith "set_" then (name.drop 4).toString
        else name
      DnType.new token class_ namespace_ name (accessors.get? token)

/-- `fields` -/
def fields (fuel : Nat) (net : ClrData) : Option (List DnType) :=
  match net.field with
  | none => some []
  | some fields =>
    membersOf fuel net (·.fieldList) fields fun entry name class_ namespace_ =>
      DnType.new (calculateTokenValue Table.field.index entry.rowIndex) class_ namespace_ name none

/-! ## Links -/

/-- The link of the enclosing classes: from a row of the `TypeDef` table to the row that encloses
    it. -/
def enclosingLink (net : ClrData) (rid : Nat) : Option Nat :=
  if (getTableRowByRid net.typeDef rid).isSome then (nestedClassTable net).get? rid else none

/-- The link of the resolution scopes: from a row of the `TypeRef` table to the row its scope
    names, when the scope is a `TypeRef`. -/
def scopeLink (net : ClrData) (rid : Nat) : Option Nat :=
  (getTableRowByRid net.typeRef rid).bind fun row =>
    if row.resolutionScope.table = .typeRef then some row.resolutionScope.rowIndex else none

/-- The row numbers of a table. -/
def rids {α : Type} (table : Option (List α)) : List Nat :=
  (List.range (table.getD []).length).map (· + 1)

end CapaX.Dotnet
