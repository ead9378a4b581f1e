import CapaX.Address
import CapaX.Collections.IndexMap
import CapaX.Collections.OrdMap
import CapaX.Rules.Graph

/-
  Statement evaluation (`engine.rs`). `evaluate` builds the evidence tree of a body on a feature
  set; `evaluateBoolean` is the outcome alone, with the same traversal as the short-circuiting
  `evaluate`. The two passes of the matcher are `evaluateBoolean` and `evaluate .. false`.
-/

namespace CapaX

open Collections

/-! ## Feature sets -/

/-- A feature set: each feature with its locations, in the order of first insertion. -/
abbrev FeatureSet := IndexMap Feature (OrdSet Address)

namespace FeatureSet

def insert (fs : FeatureSet) (feature : Feature) (addr : Address) : FeatureSet :=
  fs.upsert feature fun locs => (locs.getD ∅).insert addr

def insertMany (fs : FeatureSet) (feature : Feature) (locations : OrdSet Address) : FeatureSet :=
  fs.upsert feature fun locs => locs.getD ∅ ∪ locations

def merge (fs other : FeatureSet) : FeatureSet :=
  other.entries.foldl (fun acc e => acc.insertMany e.1 e.2) fs

/-- `merge_owned` reuses the location set of a key that is new. -/
def mergeOwned (fs other : FeatureSet) : FeatureSet := fs.mergeWith (· ∪ ·) other

end FeatureSet

/-! ## Namespaces -/

/-- A text, what stands before its last `/`, and so on; `fuel` bounds the number of steps. -/
def successors : Nat → List Char → List (List Char)
  | 0, _ => []
  | fuel + 1, cs =>
    cs :: match beforeLastSlash cs with
      | none => []
      | some p => successors fuel p

/-- `rule_namespaces`: `a/b/c` gives `a/b/c`, `a/b` and `a`. -/
def ruleNamespaces (ns : String) : List String :=
  (successors (ns.toList.length + 1) ns.toList).map String.ofList

/-- `index_rule_matches`: publish a match under the rule's name and every namespace prefix. -/
def indexRuleMatches (fs : FeatureSet) (rule : Rule) (locations : OrdSet Address) : FeatureSet :=
  let fs := fs.insertMany (.matchedRule rule.name) locations
  match rule.namespace_ with
  | none => fs
  | some ns =>
    (ruleNamespaces ns).foldl (fun fs p => fs.insertMany (.matchedRule p) locations) fs

/-! ## Evidence -/

inductive EngineError where
  | unextractedSubscope (scope : Scope)
  | unexpandedCom (kind : ComKind)
  deriving DecidableEq, Repr

/-- What an evidence node refers to: a statement kind, or the matched feature. -/
inductive MatchedNode where
  | and
  | or
  | not
  | some (count : UInt32)
  | range (feature : Feature) (min : UInt32) (max : Option UInt32)
  | leaf (feature : Feature)
  deriving DecidableEq, Repr

/-- The texts a substring or regex leaf matched, each with its locations. -/
abbrev Captures := OrdMap String (OrdSet Address)

structure MatchResult where
  success : Bool
  node : MatchedNode
  description : Option String
  locations : OrdSet Address
  children : List MatchResult
  captures : Captures

/-- The result of a connective: only leaves and counts carry locations. -/
def MatchResult.statement (success : Bool) (node : MatchedNode) (description : Option String)
    (children : List MatchResult) : MatchResult :=
  ⟨success, node, description, ∅, children, ∅⟩

/-- The result of a leaf or a count: no children, no captures. -/
def MatchResult.ofLeaf (node : MatchedNode) (success : Bool) (description : Option String)
    (locations : OrdSet Address) : MatchResult :=
  ⟨success, node, description, locations, [], ∅⟩

/-- The matches of rules, by name; every rule with the addresses it matched at, in order. -/
abbrev MatchResults := IndexMap String (List (Address × MatchResult))

/-! ## Leaves and counts -/

/-- The text of a string feature, which a substring or regex query scans. -/
def stringValue : Feature → Option String
  | .string (.plain v) | .string (.substring v) => some v
  | .string (.regex re) => some re.raw
  | _ => none

/-- `haystack.contains(needle)` -/
def containsChars (needle : List Char) : List Char → Bool
  | [] => needle.isEmpty
  | c :: cs => needle.isPrefixOf (c :: cs) || containsChars needle cs

def osMatches (query v : String) : Bool :=
  decide (query = "any") || decide (v = "any") || decide (query = v)

/-- `locations.len() as u32` of the feature, zero when it is absent. -/
def locationCount (fs : FeatureSet) (feature : Feature) : UInt32 :=
  ((fs.get? feature).map fun locs => UInt32.ofNat locs.card).getD 0

def inRange (count min : UInt32) (max : Option UInt32) : Bool :=
  decide (min ≤ count) && max.all fun max => decide (count ≤ max)

section Evaluation

variable [RegexBackend]

/-- How a substring or regex query looks at one text. -/
inductive StringMatch where
  | substring
  | regex (re : CompiledRegex)

def StringMatch.matches (m : StringMatch) (needle haystack : String) : Bool :=
  match m with
  | .substring => containsChars needle.toList haystack.toList
  | .regex re => re.isMatch haystack

/-- The leaf arm of `evaluate_boolean`. -/
def leafBoolean (fs : FeatureSet) (feature : Feature) : Except EngineError Bool :=
  match feature with
  | .string (.substring needle) =>
    .ok ((fs.keys.filterMap stringValue).any fun v => containsChars needle.toList v.toList)
  | .string (.regex re) => .ok ((fs.keys.filterMap stringValue).any re.isMatch)
  | .bytes needle =>
    .ok (fs.keys.any fun
      | .bytes v => needle.isPrefixOf v
      | _ => false)
  | .os query =>
    .ok (fs.keys.any fun
      | .os v => osMatches query v
      | _ => false)
  | .com kind _ => .error (.unexpandedCom kind)
  | feature => .ok (fs.containsKey feature)

mutual

def evaluateBoolean (fs : FeatureSet) : Node → Except EngineError Bool
  | ⟨.and children, _⟩ => everyBoolean fs children
  | ⟨.or children, _⟩ => someBoolean fs children
  | ⟨.not child, _⟩ => do
    let b ← evaluateBoolean fs child
    return !b
  | ⟨.some count children, _⟩ => countBoolean fs count 0 children
  | ⟨.range feature min max, _⟩ => .ok (inRange (locationCount fs feature) min max)
  | ⟨.subscope scope _, _⟩ => .error (.unextractedSubscope scope)
  | ⟨.leaf feature, _⟩ => leafBoolean fs feature

def everyBoolean (fs : FeatureSet) : List Node → Except EngineError Bool
  | [] => .ok true
  | child :: rest => do
    let b ← evaluateBoolean fs child
    if b then everyBoolean fs rest else return false

def someBoolean (fs : FeatureSet) : List Node → Except EngineError Bool
  | [] => .ok false
  | child :: rest => do
    let b ← evaluateBoolean fs child
    if b then return true else someBoolean fs rest

/-- The counter is compared after every child, also when `count` is zero. -/
def countBoolean (fs : FeatureSet) (count satisfied : UInt32) :
    List Node → Except EngineError Bool
  | [] => .ok false
  | child :: rest => do
    let b ← evaluateBoolean fs child
    let satisfied := if b then satisfied + 1 else satisfied
    if count ≤ satisfied then return true else countBoolean fs count satisfied rest

end

def evalRange (feature : Feature) (min : UInt32) (max : Option UInt32) (fs : FeatureSet)
    (description : Option String) : MatchResult :=
  let matched := fs.get? feature
  let count := locationCount fs feature
  if min = 0 ∧ count = 0 then
    .ofLeaf (.range feature min max) true description ∅
  else
    .ofLeaf (.range feature min max) (inRange count min max) description (matched.getD ∅)

def evalExact (feature : Feature) (fs : FeatureSet) (description : Option String) : MatchResult :=
  match fs.get? feature with
  | some locations => .ofLeaf (.leaf feature) true description locations
  | none => .ofLeaf (.leaf feature) false description ∅

/-- The scan of the string features: locations and captures of the texts that match, up to the
    first one when short-circuiting. -/
def scanStrings (m : StringMatch) (needle : String) (shortCircuit : Bool) :
    List (Feature × OrdSet Address) → Bool × OrdSet Address × Captures →
      Bool × OrdSet Address × Captures
  | [], acc => acc
  | (feature, locs) :: rest, (any, locations, captures) =>
    match stringValue feature with
    | none => scanStrings m needle shortCircuit rest (any, locations, captures)
    | some haystack =>
      if m.matches needle haystack then
        let acc := (true, locations ∪ locs, captures.upsert haystack fun o => o.getD ∅ ∪ locs)
        if shortCircuit then acc else scanStrings m needle shortCircuit rest acc
      else scanStrings m needle shortCircuit rest (any, locations, captures)

def evalStringScan (query : Feature) (needle : String) (m : StringMatch) (fs : FeatureSet)
    (shortCircuit : Bool) (description : Option String) : MatchResult :=
  let (any, locations, captures) := scanStrings m needle shortCircuit fs.entries (false, ∅, ∅)
  ⟨any, .leaf query, description, locations, [], captures⟩

/-- The first entry a predicate on features holds of, in insertion order. -/
def evalFirst (query : Feature) (p : Feature → Bool) (fs : FeatureSet)
    (description : Option String) : MatchResult :=
  match fs.entries.find? fun e => p e.1 with
  | some (_, locs) => .ofLeaf (.leaf query) true description locs
  | none => .ofLeaf (.leaf query) false description ∅

def evalBytes (query : Feature) (needle : List UInt8) (fs : FeatureSet)
    (description : Option String) : MatchResult :=
  evalFirst query (fun | .bytes v => needle.isPrefixOf v | _ => false) fs description

def evalOs (queryFeature : Feature) (query : String) (fs : FeatureSet)
    (description : Option String) : MatchResult :=
  evalFirst queryFeature (fun | .os v => osMatches query v | _ => false) fs description

def evalLeaf (feature : Feature) (fs : FeatureSet) (shortCircuit : Bool)
    (description : Option String) : Except EngineError MatchResult :=
  match feature with
  | .string (.substring needle) =>
    .ok (evalStringScan feature needle .substring fs shortCircuit description)
  | .string (.regex re) =>
    .ok (evalStringScan feature re.raw (.regex re) fs shortCircuit description)
  | .bytes needle => .ok (evalBytes feature needle fs description)
  | .os query => .ok (evalOs feature query fs description)
  | .com kind _ => .error (.unexpandedCom kind)
  | _ => .ok (evalExact feature fs description)

/-! ## Evidence trees -/

mutual

/-- The evidence of a node; a connective is handed the results of its children. -/
def evaluate (fs : FeatureSet) (shortCircuit : Bool) : Node → Except EngineError MatchResult
  | ⟨.and children, description⟩ =>
    if shortCircuit then do
      let (results, stopped) ← evalUntil fs false children
      return .statement (!stopped) .and description results
    else do
      let results ← evalAll fs children
      return .statement (results.all (·.success)) .and description results
  | ⟨.or children, description⟩ =>
    if shortCircuit then do
      let (results, stopped) ← evalUntil fs true children
      return .statement stopped .or description results
    else do
      let results ← evalAll fs children
      return .statement (results.any (·.success)) .or description results
  | ⟨.not child, description⟩ => do
    let r ← evaluate fs shortCircuit child
    return .statement (!r.success) .not description [r]
  | ⟨.some count children, description⟩ =>
    if shortCircuit then do
      let (results, reached) ← evalCount fs count 0 children
      return .statement reached (.some count) description results
    else do
      let results ← evalAll fs children
      let satisfied := UInt32.ofNat (results.countP (·.success))
      return .statement (decide (count ≤ satisfied)) (.some count) description results
  | ⟨.range feature min max, description⟩ => .ok (evalRange feature min max fs description)
  | ⟨.subscope scope _, _⟩ => .error (.unextractedSubscope scope)
  | ⟨.leaf feature, description⟩ => evalLeaf feature fs shortCircuit description

/-- The short-circuit loop of `eval_and` and `eval_or`: evaluate up to the first child whose
    success is `stop`, and say whether there was one. -/
def evalUntil (fs : FeatureSet) (stop : Bool) :
    List Node → Except EngineError (List MatchResult × Bool)
  | [] => .ok ([], false)
  | child :: rest => do
    let r ← evaluate fs true child
    if r.success = stop then return ([r], true)
    else do
      let (results, stopped) ← evalUntil fs stop rest
      return (r :: results, stopped)

/-- The short-circuit loop of `eval_some`. -/
def evalCount (fs : FeatureSet) (count satisfied : UInt32) :
    List Node → Except EngineError (List MatchResult × Bool)
  | [] => .ok ([], false)
  | child :: rest => do
    let r ← evaluate fs true child
    let satisfied := if r.success then satisfied + 1 else satisfied
    if count ≤ satisfied then return ([r], true)
    else do
      let (results, reached) ← evalCount fs count satisfied rest
      return (r :: results, reached)

/-- `eval_all`, the loop of the pass that does not short-circuit. -/
def evalAll (fs : FeatureSet) : List Node → Except EngineError (List MatchResult)
  | [] => .ok []
  | child :: rest => do
    let r ← evaluate fs false child
    let results ← evalAll fs rest
    return r :: results

end

end Evaluation

end CapaX
