import CapaX.Rules.Node
import CapaX.Rules.Yaml

/-
  Rules and their errors (`rules/mod.rs`, `rules/error.rs`).
-/

namespace CapaX

inductive RuleError where
  | invalid (message : String)
  | invalidWithPath (path message : String)
  | invalidRuleSet (message : String)
  | yaml (message : String)
  deriving DecidableEq, Repr

structure RuleMeta where
  name : String
  namespace_ : Option String
  authors : List String
  description : String
  lib : Bool
  attack : List String
  mbc : List String
  references : List String
  examples : List String
  /-- the complete `meta:` mapping -/
  raw : Yaml.Mapping

structure Rule where
  name : String
  namespace_ : Option String
  «meta» : RuleMeta
  scopes : Scopes
  body : Node
  isLib : Bool
  source : String

namespace Rule

/-- `is_subscope_rule` reads the raw `meta:` mapping, whoever wrote it. -/
def isSubscopeRule (r : Rule) : Bool :=
  ((r.meta.raw.get "capa/subscope-rule").bind Yaml.Value.asBool).getD false

def setBody (r : Rule) (body : Node) : Rule := { r with body := body }

/-- A rule whose `meta:` has a name, a namespace and scopes only. -/
def minimal (name : String) (namespace_ : Option String) (scopes : Scopes) (body : Node) :
    Rule where
  name := name
  namespace_ := namespace_
  «meta» := ⟨name, namespace_, [], "", false, [], [], [], [], []⟩
  scopes := scopes
  body := body
  isLib := false
  source := ""

@[simp] theorem setBody_name (r : Rule) (b : Node) : (r.setBody b).name = r.name := rfl

@[simp] theorem setBody_body (r : Rule) (b : Node) : (r.setBody b).body = b := rfl

@[simp] theorem setBody_scopes (r : Rule) (b : Node) : (r.setBody b).scopes = r.scopes := rfl

@[simp] theorem setBody_namespace (r : Rule) (b : Node) :
    (r.setBody b).namespace_ = r.namespace_ := rfl

@[simp] theorem setBody_isSubscopeRule (r : Rule) (b : Node) :
    (r.setBody b).isSubscopeRule = r.isSubscopeRule := rfl

end Rule

end CapaX
