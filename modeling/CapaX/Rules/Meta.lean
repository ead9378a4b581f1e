import CapaX.Rules.Grammar
import Mathlib.Data.List.Sort
import Mathlib.Data.String.Basic

/-
  `Rule::from_yaml` (`rules/meta.rs`, `Scopes::from_dict` in `rules/scope.rs`): the checks of the
  `meta:` mapping and the body of a rule document. The text is parsed by a third-party crate,
  `Parser`; everything after that is `ruleFromDocument`.
-/

namespace CapaX

open Yaml

/-- `serde_yaml::from_str` -/
class Parser where
  fromStr : String → Except String Value

section

variable [Format]

/-! ## Scopes -/

def yamlScalarStr (map : Mapping) (key : String) : Except RuleError String :=
  match map.get key with
  | none => .error (.invalid s!"{key} scope must be provided")
  | some (.string s) => .ok s
  | some other =>
    .error (.invalid s!"{key} scope must be a string, got: {Format.debug other}")

omit [Format] in
/-- One flavour of `from_dict`: a valid scope of the flavour, or `unsupported`. -/
def parseFlavour (flavour : String) (valid : List Scope) (value : String) :
    Except RuleError (Option Scope) :=
  if value = "unsupported" then .ok none
  else
    match Scope.parse value with
    | some scope =>
      if scope ∈ valid then .ok (some scope)
      else .error (.invalid s!"{value} is not a valid {flavour} scope")
    | none => .error (.invalid s!"{value} is not a valid {flavour} scope")

/-- `Scopes::from_dict` -/
def Scopes.fromDict (map : Mapping) : Except RuleError Scopes := do
  let keys := map.filterMap fun e => e.1.asStr
  if "static" ∉ keys then .error (.invalid "static scope must be provided")
  else if "dynamic" ∉ keys then .error (.invalid "dynamic scope must be provided")
  else if keys.insertionSort (· ≤ ·) ≠ ["dynamic", "static"] then
    .error (.invalid "scope flavors can be either static or dynamic")
  else do
    let staticValue ← yamlScalarStr map "static"
    let dynamicValue ← yamlScalarStr map "dynamic"
    if staticValue = "unsupported" ∧ dynamicValue = "unsupported" then
      .error (.invalid "invalid scopes value. At least one scope must be specified")
    else do
      let staticScope ← parseFlavour "static" staticScopes staticValue
      let dynamicScope ← parseFlavour "dynamic" dynamicScopes dynamicValue
      return ⟨staticScope, dynamicScope⟩

/-! ## The document -/

def stringField (map : Mapping) (key : String) : Except RuleError (Option String) :=
  match map.get key with
  | none => .ok none
  | some (.string s) => .ok (some s)
  | some other =>
    .error (.invalid s!"rule.meta.{key} must be a string, got: {Format.debug other}")

def listOfStringsOrEmpty (map : Mapping) (key typeError : String) :
    Except RuleError (List String) :=
  match map.get key with
  | none => .ok []
  | some (.sequence items) => items.mapM fun
    | .string s => .ok s
    | .number n => .ok (Format.display n)
    | other =>
      .error (.invalid s!"rule.meta.{key} entries must be strings, got: {Format.debug other}")
  | some _ => .error (.invalid typeError)

variable [RegexBackend]

/-- The rule of a `meta:` mapping and a `features:` list. -/
def ruleFromMeta (source : String) (metaMap : Mapping) (features : List Value) :
    Except RuleError Rule := do
  let name ← (do
    match ← stringField metaMap "name" with
    | some name => .ok name
    | none => .error (.invalid "rule.meta.name is required") : Except RuleError String)
  if Mapping.containsKey metaMap "scope" then .error (.invalid s!"legacy rule detected (rule.meta.scope), please update to the new syntax: {name}")
  else do
    let scopes ← (match Mapping.get metaMap "scopes" with
      | none => .error
          (.invalid "please specify at least one of this rule's (static/dynamic) scopes")
      | some (.mapping m) => Scopes.fromDict m
      | some _ => .error
          (.invalid "the scopes field must contain a dictionary specifying the scopes")
      : Except RuleError Scopes)
    let topStmt ← (match features with
      | [.mapping m] => .ok m
      | [_] => .error (.invalid "rule's top level statement must be a mapping")
      | _ => .error (.invalid "rule must begin with a single top level statement")
      : Except RuleError Mapping)
    let attack ← listOfStringsOrEmpty metaMap "att&ck" "ATT&CK mapping must be a list"
    let mbc ← listOfStringsOrEmpty metaMap "mbc" "MBC mapping must be a list"
    let authors ← listOfStringsOrEmpty metaMap "authors" "authors must be a list"
    let references ← listOfStringsOrEmpty metaMap "references" "references must be a list"
    let examples ← listOfStringsOrEmpty metaMap "examples" "examples must be a list"
    let namespace_ ← stringField metaMap "namespace"
    let description ← stringField metaMap "description"
    let lib := ((Mapping.get metaMap "lib").bind Value.asBool).getD false
    let body ← buildStatements topStmt scopes
    return {
      name := name
      namespace_ := namespace_
      «meta» :=
        { name := name
          namespace_ := namespace_
          authors := authors
          description := description.getD ""
          lib := lib
          attack := attack
          mbc := mbc
          references := references
          examples := examples
          raw := metaMap }
      scopes := scopes
      body := body
      isLib := lib
      source := source }

/-- `rule_from_yaml` after the text has been parsed. -/
def ruleFromDocument (source : String) (doc : Value) : Except RuleError Rule :=
  match doc with
  | .mapping docMap =>
    match Mapping.get docMap "rule" with
    | some (.mapping ruleMap) =>
      match Mapping.get ruleMap "meta" with
      | some (.mapping metaMap) =>
        match Mapping.get ruleMap "features" with
        | some (.sequence features) => ruleFromMeta source metaMap features
        | _ => .error (.invalid "rule.features is required and must be a list")
      | _ => .error (.invalid "rule.meta is required and must be a mapping")
    | _ => .error (.invalid "empty or invalid YAML document")
  | _ => .error (.invalid "empty or invalid YAML document")

def Rule.fromYaml [Parser] (s : String) : Except RuleError Rule := do
  let doc ← (Parser.fromStr s).mapError RuleError.yaml
  ruleFromDocument s doc

end

/-- A rule document with a name, scopes and one top-level statement. -/
def ruleDocument (name static_ dynamic : String) (statement : Mapping) : Value :=
  .mapping [(.string "rule", .mapping [
    (.string "meta", .mapping [
      (.string "name", .string name),
      (.string "scopes", .mapping [
        (.string "static", .string static_), (.string "dynamic", .string dynamic)])]),
    (.string "features", .sequence [.mapping statement])])]

/-- The name, the scopes and the body of the rule are those of the document. -/
example : (@ruleFromDocument .blank .empty ""
    (ruleDocument "create file" "function" "call"
      [(.string "api", .string "kernel32.CreateFile")])).map
      (fun r => (r.name, r.scopes, r.body)) =
    .ok ("create file", ⟨some .function, some .call⟩, ⟨.leaf (.api "CreateFile"), none⟩) := rfl

end CapaX
