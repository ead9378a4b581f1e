import CapaX.Com
import Mathlib.Data.List.Sort

/-
  The rewriting a matching rule set starts with (`expand_and_extract` in
  `capabilities/ruleset.rs`): COM leaves are expanded, the subscopes of a body are taken out
  into synthetic rules, whose bodies are treated in turn, and every body is optimized.
-/

namespace CapaX

/-! ## COM expansion -/

section

variable [ComDatabase]

mutual

def expandComNode : Node → Except RuleError Node
  | ⟨.leaf (.com kind name), d⟩ => do
    let stmt ← translateComFeature name kind
    return ⟨stmt, d⟩
  | ⟨.leaf f, d⟩ => .ok ⟨.leaf f, d⟩
  | ⟨.and children, d⟩ => do
    let children ← expandComChildren children
    return ⟨.and children, d⟩
  | ⟨.or children, d⟩ => do
    let children ← expandComChildren children
    return ⟨.or children, d⟩
  | ⟨.some count children, d⟩ => do
    let children ← expandComChildren children
    return ⟨.some count children, d⟩
  | ⟨.not child, d⟩ => do
    let child ← expandComNode child
    return ⟨.not child, d⟩
  | ⟨.subscope scope body, d⟩ => do
    let body ← expandComNode body
    return ⟨.subscope scope body, d⟩
  | ⟨.range feature min max, d⟩ => .ok ⟨.range feature min max, d⟩

def expandComChildren : List Node → Except RuleError (List Node)
  | [] => .ok []
  | c :: cs => do
    let c ← expandComNode c
    let cs ← expandComChildren cs
    return c :: cs

end

end

/-! ## Subscope extraction -/

/-- The counter of a rule and the subscopes taken out of it so far. -/
structure Extraction where
  counter : Nat
  extracted : List (String × Scope × Node)

/-- `format!("{rule_name}/{counter}")` -/
def subscopeName (ruleName : String) (counter : Nat) : String := s!"{ruleName}/{counter}"

mutual

/-- `extract_single_child`: a subscope becomes a `match:` leaf without a description, every
    other node is searched further. -/
def extractSingleChild (ruleName : String) : Node → Extraction → Node × Extraction
  | ⟨.subscope scope body, _⟩, st =>
    let counter := st.counter + 1
    let name := subscopeName ruleName counter
    (⟨.leaf (.matchedRule name), none⟩, ⟨counter, st.extracted ++ [(name, scope, body)]⟩)
  | ⟨.and children, d⟩, st =>
    let (children, st) := extractChildList ruleName children st
    (⟨.and children, d⟩, st)
  | ⟨.or children, d⟩, st =>
    let (children, st) := extractChildList ruleName children st
    (⟨.or children, d⟩, st)
  | ⟨.some count children, d⟩, st =>
    let (children, st) := extractChildList ruleName children st
    (⟨.some count children, d⟩, st)
  | ⟨.not child, d⟩, st =>
    let (child, st) := extractSingleChild ruleName child st
    (⟨.not child, d⟩, st)
  | ⟨.range feature min max, d⟩, st => (⟨.range feature min max, d⟩, st)
  | ⟨.leaf feature, d⟩, st => (⟨.leaf feature, d⟩, st)

def extractChildList (ruleName : String) : List Node → Extraction → List Node × Extraction
  | [], st => ([], st)
  | c :: cs, st =>
    let (c, st) := extractSingleChild ruleName c st
    let (cs, st) := extractChildList ruleName cs st
    (c :: cs, st)

end

/-- `extract_children` of a rule's body: a subscope at the root stays, and its body is searched
    as a child. Below the root it is `extractSingleChild`. -/
def extractChildren (ruleName : String) (node : Node) (st : Extraction) : Node × Extraction :=
  match node with
  | ⟨.subscope scope body, d⟩ =>
    let (body, st) := extractSingleChild ruleName body st
    (⟨.subscope scope body, d⟩, st)
  | node => extractSingleChild ruleName node st

def subscopeRule (name : String) (scope : Scope) (body : Node) (parent : String) : Rule where
  name := name
  namespace_ := none
  «meta» :=
    { name := name
      namespace_ := none
      authors := []
      description := ""
      lib := true
      attack := []
      mbc := []
      references := []
      examples := []
      raw :=
        [(.string "name", .string name), (.string "lib", .bool true),
          (.string "capa/subscope-rule", .bool true), (.string "capa/parent", .string parent)] }
  scopes := .ofSubscope scope
  body := body
  isLib := true
  source := ""

section

variable [ComDatabase]

/-- One turn of the loop of `expand_and_extract`: the rule with its new body, and the synthetic
    rules to push. -/
def extractRule (rule : Rule) : Except RuleError (Rule × List Rule) := do
  let expanded ← expandComNode rule.body
  let (body, st) := extractChildren rule.name expanded ⟨0, []⟩
  return (rule.setBody body,
    st.extracted.map fun e => subscopeRule e.1 e.2.1 e.2.2 rule.name)

/-- The stack is kept with its top at the head; `fuel` bounds the number of turns. -/
def extractLoop : Nat → List Rule → List Rule → Except RuleError (List Rule)
  | 0, _, done => .ok done
  | _ + 1, [], done => .ok done
  | fuel + 1, rule :: stack, done => do
    let (rule, synthetic) ← extractRule rule
    extractLoop fuel (synthetic.reverse ++ stack) (done ++ [rule])

end

/-! ## The optimizer -/

def featureCost : Feature → UInt32
  | .os _ | .arch _ | .format _ => 0
  | .string (.substring _) | .string (.regex _) | .bytes _ => 2
  | _ => 1

mutual

def nodeCost : Node → UInt32
  | ⟨.leaf f, _⟩ => featureCost f
  | ⟨.not child, _⟩ => 1 + nodeCost child
  | ⟨.range feature _ _, _⟩ => 1 + featureCost feature
  | ⟨.and children, _⟩ => 1 + costSum children
  | ⟨.or children, _⟩ => 1 + costSum children
  | ⟨.some _ children, _⟩ => 1 + costSum children
  | ⟨.subscope _ body, _⟩ => 1 + nodeCost body

def costSum : List Node → UInt32
  | [] => 0
  | c :: cs => nodeCost c + costSum cs

end

/-- A stable sort by the first component. -/
def sortByCost (cs : List (UInt32 × Node)) : List Node :=
  (cs.insertionSort fun a b => a.1 ≤ b.1).map (·.2)

mutual

/-- `optimize_node`: the children are sorted by what they cost before they are optimized. -/
def optimizeNode : Node → Node
  | ⟨.and children, d⟩ => ⟨.and (sortByCost (optimizeChildren children)), d⟩
  | ⟨.or children, d⟩ => ⟨.or (sortByCost (optimizeChildren children)), d⟩
  | ⟨.some count children, d⟩ => ⟨.some count (sortByCost (optimizeChildren children)), d⟩
  | ⟨.not child, d⟩ => ⟨.not (optimizeNode child), d⟩
  | ⟨.subscope scope body, d⟩ => ⟨.subscope scope (optimizeNode body), d⟩
  | ⟨.range feature min max, d⟩ => ⟨.range feature min max, d⟩
  | ⟨.leaf f, d⟩ => ⟨.leaf f, d⟩

def optimizeChildren : List Node → List (UInt32 × Node)
  | [] => []
  | c :: cs => (nodeCost c, optimizeNode c) :: optimizeChildren cs

end

/-- The turns `expand_and_extract` takes for a rule: itself, and each subscope of its body. -/
def Rule.turns (rule : Rule) : Nat := 1 + rule.body.subscopeCount

def expandAndExtract [ComDatabase] (rules : List Rule) : Except RuleError (List Rule) := do
  let done ← extractLoop ((rules.map Rule.turns).sum) rules.reverse []
  return done.map fun rule => rule.setBody (optimizeNode rule.body)

end CapaX
