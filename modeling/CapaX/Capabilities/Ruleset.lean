import CapaX.Capabilities.Expansion
import CapaX.Engine

/-
  The matching rule set (`capabilities/ruleset.rs`): the dependency-first rule order of each
  scope, the index of rules by the features they need, and the matcher `matchScope`, which looks
  at the rules the index proposes, in order, and publishes each match to the rules after it.
-/

namespace CapaX

open Collections Graphs

/-- `ALL_SCOPES` -/
def allScopes : List Scope :=
  [.call, .spanOfCalls, .thread, .process, .instruction, .basicBlock, .function, .file]

/-! ## The order of a scope -/

/-- The dependencies of the rule of a name; a name without a rule has none. -/
def successorsOf (byName : IndexMap String Rule) (namespaces : Namespaces) (name : String) :
    List String :=
  (dependenciesOf byName namespaces name).getD []

/-- The searches below nest at most once for each rule, and once more for a name without one. -/
def transitiveClosure (byName : IndexMap String Rule) (namespaces : Namespaces)
    (start : String) (out : OrdSet String) : OrdSet String :=
  closure (successorsOf byName namespaces) (byName.len + 1) start out

def topoSortSubset (names : OrdSet String) (byName : IndexMap String Rule)
    (namespaces : Namespaces) : List String :=
  (names.toList.foldl
    (fun s name => postorder (successorsOf byName namespaces) (byName.len + 1) name s)
    ⟨∅, []⟩).order

/-- The names reachable from the rules that are not subscope rules. -/
def scopeRuleNames (rules : List Rule) (byName : IndexMap String Rule)
    (namespaces : Namespaces) : OrdSet String :=
  rules.foldl (fun out rule =>
    if rule.isSubscopeRule then out
    else transitiveClosure byName namespaces rule.name out) ∅

def rulesForScope (rules : List Rule) (byName : IndexMap String Rule) (namespaces : Namespaces)
    (scope : Scope) : List String :=
  (topoSortSubset (scopeRuleNames rules byName namespaces) byName namespaces).filter fun name =>
    (byName.get? name).any fun r => r.scopes.contains scope

/-! ## The feature index -/

def indexScore : Feature → Nat
  | .matchedRule _ | .string (.plain _) => 9
  | .api _ => 8
  | .export_ _ => 7
  | .number value | .operandNumber _ value =>
    match value with
    | .int v =>
      if (-0x8000 ≤ v ∧ v ≤ 0x8000) ∨ (0xffffff00 ≤ v ∧ v ≤ 0xffffffff) ∨
          (0xffffffffffffff00 ≤ v ∧ v ≤ 0xffffffffffffffff) then 3
      else 7
    | .float _ => 7
  | .class_ _ | .namespace_ _ | .property _ _ | .import_ _ | .section_ _ | .functionName _ => 5
  | .characteristic _ | .offset _ | .operandOffset _ _ => 4
  | .mnemonic _ => 2
  | .basicBlock => 1
  | .os _ | .arch _ | .format _ | .bytes _ | .string (.substring _) | .string (.regex _)
  | .com _ _ => 0

/-- A score and alternatives: one of the features is present whenever the body matches. -/
structure Required where
  score : Nat
  alternatives : List Feature

/-- `HashSet::insert` -/
def insertFeature (features : List Feature) (f : Feature) : List Feature :=
  if features.any fun g => g == f then features else features ++ [f]

/-- One step of `max_by_key`: the later of two equal keys wins. -/
def Required.better (best : Option Required) (r : Required) : Required :=
  match best with
  | none => r
  | some b =>
    if b.score < r.score ∨
        (b.score = r.score ∧ r.alternatives.length ≤ b.alternatives.length) then r
    else b

mutual

def requiredFeatures : Node → Option Required
  | ⟨.not _, _⟩ | ⟨.subscope _ _, _⟩ => none
  | ⟨.leaf feature, _⟩ => some ⟨indexScore feature, [feature]⟩
  | ⟨.range feature min _, _⟩ =>
    if min = 0 then none else some ⟨indexScore feature, [feature]⟩
  | ⟨.and children, _⟩ => requiredOfAnd children none
  | ⟨.or children, _⟩ => requiredOfOr children ⟨255, []⟩
  | ⟨.some count children, _⟩ =>
    if count = 0 then none else requiredOfOr children ⟨255, []⟩

def requiredOfAnd : List Node → Option Required → Option Required
  | [], best => best
  | c :: cs, best =>
    match requiredFeatures c with
    | none => requiredOfAnd cs best
    | some r => requiredOfAnd cs (some (Required.better best r))

def requiredOfOr : List Node → Required → Option Required
  | [], acc => some acc
  | c :: cs, acc =>
    match requiredFeatures c with
    | none => none
    | some r =>
      requiredOfOr cs
        ⟨min acc.score r.score, r.alternatives.foldl insertFeature acc.alternatives⟩

end

def Feature.isString : Feature → Bool
  | .string _ => true
  | _ => false

def Feature.isBytes : Feature → Bool
  | .bytes _ => true
  | _ => false

def Feature.isOs : Feature → Bool
  | .os _ => true
  | _ => false

structure RuleFeatureIndex where
  exact : IndexMap Feature (List Nat)
  strings : List Nat
  bytes : List Nat
  os : List Nat
  always : List Nat

namespace RuleFeatureIndex

def empty : RuleFeatureIndex := ⟨∅, [], [], [], []⟩

/-- Positions come in order, so a bucket that has one already has it last. -/
def pushPosition (bucket : List Nat) (position : Nat) : List Nat :=
  if bucket.getLast? = some position then bucket else bucket ++ [position]

/-- Register a rule's position under one of its alternatives. -/
def addAlternative (position : Nat) (index : RuleFeatureIndex) (feature : Feature) :
    RuleFeatureIndex :=
  match feature with
  | .string (.substring _) | .string (.regex _) =>
    { index with strings := pushPosition index.strings position }
  | .bytes _ => { index with bytes := pushPosition index.bytes position }
  | .os _ => { index with os := pushPosition index.os position }
  | feature =>
    { index with exact := index.exact.upsert feature fun o => pushPosition (o.getD []) position }

def addRule (index : RuleFeatureIndex) (rule : Rule × Nat) : RuleFeatureIndex :=
  match requiredFeatures rule.1.body with
  | none => { index with always := index.always ++ [rule.2] }
  | some r => r.alternatives.foldl (addAlternative rule.2) index

/-- `RuleFeatureIndex::new` -/
def ofRules (rules : List Rule) : RuleFeatureIndex := rules.zipIdx.foldl addRule empty

/-- The positions to look at: the rules without alternatives, and those with one present. -/
def candidates (index : RuleFeatureIndex) (features : FeatureSet) : OrdSet Nat :=
  let exact := features.keys.foldl (fun candidates feature =>
    candidates.insertAll ((index.exact.get? feature).getD [])) (OrdSet.ofList index.always)
  let strings := features.keys.any Feature.isString
  let bytes := features.keys.any Feature.isBytes
  let os := features.keys.any Feature.isOs
  [(strings, index.strings), (bytes, index.bytes), (os, index.os)].foldl
    (fun candidates e => if e.1 then candidates.insertAll e.2 else candidates) exact

end RuleFeatureIndex

/-! ## The rule set -/

structure MatchingRuleSet where
  /-- every rule, original or synthetic, by name -/
  rules : IndexMap String Rule
  rulesByScope : IndexMap Scope (List String)
  indexes : IndexMap Scope RuleFeatureIndex
  byNamespacePrefix : Namespaces

namespace MatchingRuleSet

/-- The rule set of an expanded list of rules. -/
def ofExpanded (expanded : List Rule) : MatchingRuleSet :=
  let byNamespacePrefix := indexRulesByNamespace expanded
  let byName := indexByName expanded
  let rulesByScope := IndexMap.ofList (allScopes.map fun scope =>
    (scope, rulesForScope expanded byName byNamespacePrefix scope))
  let indexes := IndexMap.ofList (rulesByScope.entries.map fun e =>
    (e.1, RuleFeatureIndex.ofRules (e.2.filterMap byName.get?)))
  ⟨byName, rulesByScope, indexes, byNamespacePrefix⟩

def new [ComDatabase] (rules : List Rule) : Except RuleError MatchingRuleSet := do
  let _ ← RuleSet.new rules
  let expanded ← expandAndExtract rules
  return ofExpanded expanded

def get (set : MatchingRuleSet) (name : String) : Option Rule := set.rules.get? name

/-- `rules_for_scope`: the rules of a scope, dependencies first. -/
def rulesForScope (set : MatchingRuleSet) (scope : Scope) : List Rule :=
  ((set.rulesByScope.get? scope).getD []).filterMap set.rules.get?

/-! ### What a rule set holds -/

theorem allScopes_distinct {β : Type} (f : Scope → β) :
    (allScopes.map fun s => (s, f s)).Pairwise fun a b => (a.1 == b.1) = false := by
  rw [List.pairwise_map]
  show allScopes.Pairwise fun s t => (s == t) = false
  decide

/-- A map over the scopes finds the value of each of them. -/
theorem get?_scopes {β : Type} (f : Scope → β) (scope : Scope) :
    (IndexMap.ofList (allScopes.map fun s => (s, f s))).get? scope =
      if scope ∈ allScopes then some (f scope) else none := by
  by_cases h : scope ∈ allScopes
  · rw [if_pos h]
    exact IndexMap.get?_ofList (allScopes_distinct f) (List.mem_map.mpr ⟨scope, h, rfl⟩)
      (beq_self_eq_true scope)
  · rw [if_neg h]
    cases hget : (IndexMap.ofList (allScopes.map fun s => (s, f s))).get? scope with
    | none => rfl
    | some b =>
      obtain ⟨e, he, _, hk⟩ := IndexMap.mem_of_get?_ofList hget
      obtain ⟨s, hs, rfl⟩ := List.mem_map.mp he
      exact absurd (eq_of_beq hk ▸ hs) h

theorem rulesByScope_ofExpanded (es : List Rule) (scope : Scope) :
    (ofExpanded es).rulesByScope.get? scope =
      if scope ∈ allScopes then
        some (CapaX.rulesForScope es (indexByName es) (indexRulesByNamespace es) scope)
      else none := get?_scopes _ scope

theorem indexes_ofExpanded (es : List Rule) (scope : Scope) :
    (ofExpanded es).indexes.get? scope =
      if scope ∈ allScopes then some (.ofRules ((ofExpanded es).rulesForScope scope))
      else none := by
  have hindexes : (ofExpanded es).indexes = IndexMap.ofList (allScopes.map fun s =>
      (s, RuleFeatureIndex.ofRules ((CapaX.rulesForScope es (indexByName es)
        (indexRulesByNamespace es) s).filterMap (indexByName es).get?))) := by
    unfold ofExpanded
    simp only [IndexMap.entries_ofList (allScopes_distinct _), List.map_map]
    rfl
  rw [hindexes, get?_scopes]
  by_cases h : scope ∈ allScopes
  · rw [if_pos h, if_pos h, MatchingRuleSet.rulesForScope, rulesByScope_ofExpanded, if_pos h]
    rfl
  · rw [if_neg h, if_neg h]

/-- A rule listed for a scope is a rule of that scope. -/
theorem mem_rulesForScope_ofExpanded {es : List Rule} {scope : Scope} {rule : Rule}
    (h : rule ∈ (ofExpanded es).rulesForScope scope) :
    rule ∈ es ∧ rule.scopes.contains scope = true ∧ scope ∈ allScopes := by
  obtain ⟨name, hname, hrule⟩ := List.mem_filterMap.mp h
  rw [rulesByScope_ofExpanded] at hname
  split at hname
  · next hscope =>
    obtain ⟨_, hany⟩ := List.mem_filter.mp hname
    have hget : (indexByName es).get? name = some rule := hrule
    rw [hget] at hany
    exact ⟨(indexByName_some hget).1, hany, hscope⟩
  · cases hname

/-- Every listed name has a rule, so the rules stand where their names do. -/
theorem getElem?_rulesForScope_ofExpanded (es : List Rule) (scope : Scope) (p : Nat) :
    (((ofExpanded es).rulesByScope.get? scope).getD [])[p]?.bind (ofExpanded es).rules.get? =
      ((ofExpanded es).rulesForScope scope)[p]? := by
  have hsome : ∀ name ∈ ((ofExpanded es).rulesByScope.get? scope).getD [],
      ((ofExpanded es).rules.get? name).isSome := by
    intro name hname
    rw [rulesByScope_ofExpanded] at hname
    split at hname
    · obtain ⟨_, hany⟩ := List.mem_filter.mp hname
      show ((indexByName es).get? name).isSome
      cases hget : (indexByName es).get? name with
      | none => rw [hget] at hany; cases hany
      | some r => rfl
    · cases hname
  revert hsome
  unfold rulesForScope
  generalize ((ofExpanded es).rulesByScope.get? scope).getD [] = names
  intro hsome
  induction names generalizing p with
  | nil => rfl
  | cons name names ih =>
    obtain ⟨rule, hrule⟩ := Option.isSome_iff_exists.mp (hsome name List.mem_cons_self)
    rw [List.filterMap_cons_some hrule]
    cases p with
    | zero => exact hrule
    | succ p => exact ih p fun n hn => hsome n (List.mem_cons_of_mem _ hn)

theorem new_ok [ComDatabase] {rules : List Rule} {set : MatchingRuleSet}
    (h : MatchingRuleSet.new rules = .ok set) :
    RuleSet.Accepts rules ∧ ∃ es, expandAndExtract rules = .ok es ∧ set = ofExpanded es := by
  obtain ⟨ruleSet, hnew, h⟩ := Control.bind_eq_ok.mp h
  obtain ⟨es, hes, h⟩ := Control.bind_eq_ok.mp h
  exact ⟨RuleSet.new_ok hnew, es, hes, (Except.ok.inj h).symm⟩

/-! ## Matching -/

section

variable [RegexBackend]

/-- The loop of `match_scope_borrowed` over the candidate positions. Popped positions increase
    and are positions of `names`, so `names.length` turns are enough. -/
def matchLoop (set : MatchingRuleSet) (index : RuleFeatureIndex) (names : List String)
    (addr : Address) : Nat → OrdSet Nat → FeatureSet → MatchResults →
    Except EngineError (FeatureSet × MatchResults)
  | 0, _, features, results => .ok (features, results)
  | fuel + 1, candidates, features, results =>
    match candidates.popFirst with
    | none => .ok (features, results)
    | some (position, candidates) =>
      match names[position]?.bind set.rules.get? with
      | none => matchLoop set index names addr fuel candidates features results
      | some rule => do
        if ← evaluateBoolean features rule.body then
          let full ← evaluate features false rule.body
          let locations := OrdSet.singleton addr
          let previousLen := features.len
          let features := indexRuleMatches features rule locations
          let candidates := (features.keys.drop previousLen).foldl (fun candidates feature =>
            candidates.insertAll
              (((index.exact.get? feature).getD []).filter fun i => decide (position < i)))
            candidates
          let results := results.upsert rule.name fun o => o.getD [] ++ [(addr, full)]
          matchLoop set index names addr fuel candidates features results
        else matchLoop set index names addr fuel candidates features results

/-- `match_scope`: the features with every match published, and the matches. -/
def matchScope (set : MatchingRuleSet) (scope : Scope) (features : FeatureSet) (addr : Address) :
    Except EngineError (FeatureSet × MatchResults) :=
  match set.indexes.get? scope with
  | none => .ok (features, ∅)
  | some index =>
    let names := (set.rulesByScope.get? scope).getD []
    matchLoop set index names addr (names.length + 1) (index.candidates features) features ∅

/-- `match_scope_results` -/
def matchScopeResults (set : MatchingRuleSet) (scope : Scope) (features : FeatureSet)
    (addr : Address) : Except EngineError MatchResults := do
  let (_, results) ← set.matchScope scope features addr
  return results

end

end MatchingRuleSet

end CapaX
