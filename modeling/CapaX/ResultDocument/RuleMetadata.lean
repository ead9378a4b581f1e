import CapaX.Rules.Rule

/-
  The metadata of a rule as the result document shows it (`rule_metadata` in `from_capa.rs`, with
  the types of `tree.rs`).
-/

namespace CapaX

namespace ResultDocument

structure RdScopes where
  static_ : Option String
  dynamic : Option String

/-- `Tactic::Technique::Subtechnique [Identifier]` -/
structure AttackSpec where
  parts : List String
  tactic : String
  technique : String
  subtechnique : String
  id : String
  deriving DecidableEq

/-- `Objective::Behavior::Method [Identifier]` -/
structure MBCSpec where
  parts : List String
  objective : String
  behavior : String
  method : String
  id : String
  deriving DecidableEq

/-- `split("::")` -/
def splitParts : List Char → List (List Char)
  | ':' :: ':' :: cs => [] :: splitParts cs
  | c :: cs =>
    match splitParts cs with
    | [] => [[c]]
    | part :: parts => (c :: part) :: parts
  | [] => [[]]

/-- `parse_parts_id`: the last part ends in a space and the identifier. -/
def parsePartsId (s : String) : List String × String :=
  let parts := splitParts s.toList
  let last := (parts.getLastD []).reverse
  let rest := (last.dropWhile (· ≠ ' ')).tail.reverse
  let id := (last.takeWhile (· ≠ ' ')).reverse
  ((parts.dropLast ++ [rest]).map String.ofList,
    String.ofList (((id.dropWhile (· = '[')).reverse.dropWhile (· = ']')).reverse))

def AttackSpec.fromStr (s : String) : AttackSpec :=
  let (parts, id) := parsePartsId s
  ⟨parts, parts.getD 0 "", parts.getD 1 "", parts.getD 2 "", id⟩

def MBCSpec.fromStr (s : String) : MBCSpec :=
  let (parts, id) := parsePartsId s
  ⟨parts, parts.getD 0 "", parts.getD 1 "", parts.getD 2 "", id⟩

example : AttackSpec.fromStr "Discovery::File and Directory Discovery [T1083]" =
    ⟨["Discovery", "File and Directory Discovery"], "Discovery", "File and Directory Discovery", "",
      "T1083"⟩ := by decide

def yamlStr (map : Yaml.Mapping) (key : String) : Option String :=
  match map.get key with
  | some (.string s) => some s
  | _ => none

structure MaecMetadata where
  analysisConclusion : Option String
  analysisConclusionOv : Option String
  malwareFamily : Option String
  malwareCategory : Option String
  malwareCategoryOv : Option String

/-- The `maec` fields of `rule_metadata`. -/
def maecMetadata (rule : Rule) : MaecMetadata where
  analysisConclusion := yamlStr rule.meta.raw "maec/analysis-conclusion"
  analysisConclusionOv := yamlStr rule.meta.raw "maec/analysis-conclusion-ov"
  malwareFamily := yamlStr rule.meta.raw "maec/malware-family"
  malwareCategory := yamlStr rule.meta.raw "maec/malware-category"
  malwareCategoryOv := yamlStr rule.meta.raw "maec/malware-category-ov"

structure RuleMetadata where
  name : String
  namespace_ : Option String
  authors : List String
  scopes : RdScopes
  attack : List AttackSpec
  mbc : List MBCSpec
  references : List String
  examples : List String
  description : String
  lib : Bool
  isSubscopeRule : Bool
  maec : MaecMetadata

/-- `rule_metadata` -/
def ruleMetadata (rule : Rule) : RuleMetadata where
  name := rule.name
  namespace_ := rule.namespace_
  authors := rule.meta.authors
  scopes := ⟨rule.scopes.static_.map Scope.asStr, rule.scopes.dynamic.map Scope.asStr⟩
  attack := rule.meta.attack.map AttackSpec.fromStr
  mbc := rule.meta.mbc.map MBCSpec.fromStr
  references := rule.meta.references
  examples := rule.meta.examples
  description := rule.meta.description
  lib := rule.meta.lib
  isSubscopeRule := rule.isSubscopeRule
  maec := maecMetadata rule

end ResultDocument

end CapaX
