import CapaX.Capabilities.Drivers
import CapaX.Wire.Rendered

/-
  The result document (`result_document/from_capa.rs`): the evidence trees of the recorded matches,
  rendered, where a successful match leaf is followed by the evidence of the rule it names, or of
  the rules of the namespace it names, at its locations. `buildMatch` calls itself on children and
  on the evidence it splices in, so it has a depth it may not exceed; how far it gets is the
  subject of `CapaX.ResultDocument.Splicing`.

  A rendered feature or address holds the data of the one it renders, and a rule stands for its
  rendered metadata and its source text.
-/

namespace CapaX

open Collections

namespace ResultDocument

/-! ## Nodes -/

/-- A feature that has a rendered form, with its description. -/
structure RenderedFeature where
  feature : Feature
  description : Option String
  deriving DecidableEq, Repr

def RenderedFeature.of (feature : Feature) (description : Option String) :
    Except String RenderedFeature := do
  let _ ← RdFeature.fromEngine feature description
  return ⟨feature, description⟩

inductive Statement where
  | and (description : Option String)
  | or (description : Option String)
  | not (description : Option String)
  | optional (description : Option String)
  | some (description : Option String) (count : UInt64)
  | range (description : Option String) (min max : UInt64) (child : RenderedFeature)
  | subscope (description : Option String) (scope : String)
  deriving DecidableEq, Repr

inductive Node where
  | statement (statement : Statement)
  | feature (feature : RenderedFeature)
  deriving DecidableEq, Repr

inductive FromCapaError where
  | feature (text : String)
  | missingRuleMatch (rule : String) (addr : Address)
  | subscopeRuleMissingScope (rule : String)
  deriving DecidableEq, Repr

/-- A missing upper bound is rendered as the greatest 64-bit value. -/
def nodeFromMatched (node : MatchedNode) (description : Option String) :
    Except FromCapaError Node :=
  match node with
  | .and => .ok (.statement (.and description))
  | .or => .ok (.statement (.or description))
  | .not => .ok (.statement (.not description))
  | .some count =>
    if count = 0 then .ok (.statement (.optional description))
    else .ok (.statement (.some description count.toUInt64))
  | .range feature min max => do
    let child ← (RenderedFeature.of feature none).mapError .feature
    return .statement (.range description min.toUInt64
      ((max.map UInt32.toUInt64).getD 0xFFFFFFFFFFFFFFFF) child)
  | .leaf feature => do
    let feature ← (RenderedFeature.of feature description).mapError .feature
    return .feature feature

/-- Features and counts carry locations. -/
def Node.isLocated : Node → Bool
  | .feature _ => true
  | .statement (.range ..) => true
  | .statement _ => false

/-- The value of a match leaf. -/
def Node.matchName : Node → Option String
  | .feature ⟨.matchedRule name, _⟩ => some name
  | _ => none

structure Match where
  success : Bool
  node : Node
  children : List Match
  locations : List Address
  captures : OrdMap String (List Address)

/-! ## Recorded matches -/

/-- The last match a rule has at each address. -/
def ruleMatchIndex (capabilities : MatchResults) (ruleName : String) :
    IndexMap Address MatchResult :=
  IndexMap.ofList ((capabilities.get? ruleName).getD [])

/-- The match at the highest call id up to `id` in the thread. -/
def mostRecentInThread (ruleMatches : IndexMap Address MatchResult) (ppid pid tid : UInt32)
    (id : UInt64) : Option MatchResult :=
  let found := ruleMatches.entries.filterMap fun e =>
    match e.1 with
    | .call p pi t id' =>
      if p = ppid ∧ pi = pid ∧ t = tid ∧ id' ≤ id then some (id', e.2) else none
    | _ => none
  (found.foldl (fun (best : Option (UInt64 × MatchResult)) e =>
    match best with
    | none => some e
    | some b => if b.1 ≤ e.1 then some e else some b) none).map (·.2)

/-- The match that stands for a location: for a call also one before it in its thread. -/
def matchAt (ruleMatches : IndexMap Address MatchResult) (location : Address) :
    Option MatchResult :=
  match ruleMatches.get? location with
  | some m => some m
  | none =>
    match location with
    | .call ppid pid tid id => mostRecentInThread ruleMatches ppid pid tid id
    | _ => none

/-! ## The recursion -/

/-- The recursion needs more than the depth it has, or it fails. -/
inductive BuildError where
  | tooDeep
  | failed (error : FromCapaError)
  deriving DecidableEq, Repr

section

variable (set : MatchingRuleSet) (capabilities : MatchResults)

/-- The node of a match leaf that names a rule; the leaf of a subscope rule is rendered as the
    subscope. -/
def ruleNode (rule : Rule) (name : String) (node : Node) : Except FromCapaError Node :=
  if rule.isSubscopeRule then
    match rule.scopes.static_.or rule.scopes.dynamic with
    | none => .error (.subscopeRuleMissingScope name)
    | some scope => .ok (.statement (.subscope none scope.asStr))
  else .ok node

/-- The match of a rule at a location. Only a call may have none. -/
def ruleMatchAt (name : String) (location : Address) :
    Except FromCapaError (Option MatchResult) :=
  match matchAt (ruleMatchIndex capabilities name) location with
  | some m => .ok (some m)
  | none =>
    match location with
    | .call .. => .ok none
    | _ => .error (.missingRuleMatch name location)

/-- The matches of one rule of a namespace, when it has any. -/
def namespaceMatchesAt (ruleName : String) (locations : List Address) : List MatchResult :=
  if capabilities.containsKey ruleName then
    locations.filterMap (matchAt (ruleMatchIndex capabilities ruleName))
  else []

/-- One turn of the loop over the locations of a leaf that names a rule. -/
def spliceAt (build : MatchResult → Except BuildError Match) (name : String)
    (location : Address) : Except BuildError (Option Match) := do
  match ← (ruleMatchAt capabilities name location).mapError .failed with
  | some m =>
    let out ← build m
    return some out
  | none => return none

/-- What a successful match leaf of `name` splices in, and the node it is rendered as. A rule of
    that name goes before the namespace. -/
def splice (build : MatchResult → Except BuildError Match) (name : String) (node : Node)
    (locations : List Address) : Except BuildError (Node × List Match) :=
  match set.get name with
  | some rule => do
    let node ← (ruleNode rule name node).mapError .failed
    let spliced ← locations.mapM (spliceAt capabilities build name)
    return (node, spliced.filterMap id)
  | none => do
    let spliced ← ((set.byNamespacePrefix.get? name).getD []).mapM fun ruleName =>
      (namespaceMatchesAt capabilities ruleName locations).mapM build
    return (node, spliced.flatten)

/-- The match of a rendered node: a match leaf that succeeded splices in what it refers to. -/
def finishMatch (build : MatchResult → Except BuildError Match) (result : MatchResult)
    (node : Node) (children : List Match) : Except BuildError Match :=
  let locations := if node.isLocated && result.success then result.locations.toList else []
  let captures := OrdMap.ofList (result.captures.entries.map fun e => (e.1, e.2.toList))
  match result.success, node.matchName with
  | true, some name => do
    let (node, spliced) ← splice set capabilities build name node result.locations.toList
    return ⟨result.success, node, children ++ spliced, locations, captures⟩
  | _, _ => .ok ⟨result.success, node, children, locations, captures⟩

def buildMatch : Nat → MatchResult → Except BuildError Match
  | 0, _ => .error .tooDeep
  | depth + 1, result => do
    let node ← (nodeFromMatched result.node result.description).mapError .failed
    let children ← result.children.mapM (buildMatch depth)
    finishMatch set capabilities (buildMatch depth) result node children

/-- The rendered matches of a rule. -/
structure RuleMatches where
  rule : Rule
  matches_ : List (Address × Match)

/-- One turn of the loop over the recorded matches. -/
def renderRule (depth : Nat) (rules : OrdMap String RuleMatches)
    (e : String × List (Address × MatchResult)) : Except BuildError (OrdMap String RuleMatches) :=
  match set.get e.1 with
  | none => .ok rules
  | some rule =>
    if rule.isSubscopeRule then .ok rules
    else do
      let rendered ← e.2.mapM fun r => do
        let m ← buildMatch set capabilities depth r.2
        return (r.1, m)
      return rules.upsert e.1 fun _ => ⟨rule, rendered⟩

def buildResultDocument (order : IterOrder) (depth : Nat) :
    Except BuildError (OrdMap String RuleMatches) :=
  (order.reorder capabilities).entries.foldlM (renderRule set capabilities depth) ∅

end

end ResultDocument

end CapaX
