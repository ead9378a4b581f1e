import CapaX.Capabilities.Matching
import CapaX.Engine.Alike
import CapaX.Freeze

/-
  The steps both drivers share (`static_analysis.rs` and `dynamic_analysis.rs` have a copy of
  each): seeding a feature set, collecting the matches of a unit, publishing matches to the unit
  around it, and the match at file scope.

  A `HashMap` of matches is walked in an order nothing fixes. Every such walk takes an `IterOrder`,
  so what is proved of a driver for all of them holds in every run of the program. Lookups do not
  depend on the order (`get?_extendMatches`, `promoteMatches_alike`, `publishMatches_alike`).
-/

namespace CapaX

open Collections

/-! ## Walking a map of matches -/

/-- An order in which a `HashMap` of matches may be walked: any order of its entries. -/
structure IterOrder where
  reorder : MatchResults → MatchResults
  perm : ∀ m, (reorder m).entries.Perm m.entries

/-- The order in which the entries were inserted. -/
def IterOrder.insertion : IterOrder := ⟨id, fun _ => .refl _⟩

instance : Inhabited IterOrder := ⟨.insertion⟩

theorem IterOrder.mem_reorder (order : IterOrder) (m : MatchResults)
    (e : String × List (Address × MatchResult)) :
    e ∈ (order.reorder m).entries ↔ m.get? e.1 = some e.2 := by
  rw [(order.perm m).mem_iff]
  constructor
  · exact fun he => IndexMap.get?_of_mem he (beq_self_eq_true e.1)
  · intro h
    obtain ⟨k, hk, he⟩ := IndexMap.mem_of_get? h
    rwa [eq_of_beq he] at hk

theorem IterOrder.get?_reorder (order : IterOrder) (m : MatchResults) (name : String) :
    (order.reorder m).get? name = m.get? name := by
  cases h : m.get? name with
  | some res =>
    exact IndexMap.get?_of_mem ((order.mem_reorder m (name, res)).mpr h) (beq_self_eq_true name)
  | none =>
    cases h' : (order.reorder m).get? name with
    | none => rfl
    | some res =>
      obtain ⟨k, hk, he⟩ := IndexMap.mem_of_get? h'
      have hm := (order.mem_reorder m (k, res)).mp hk
      rw [eq_of_beq he, h] at hm
      exact hm.symm

/-! ## The steps -/

/-- Insert `features`, in order, then the global features at no address. -/
def seed (fs : FeatureSet) (features : List Located) (globals : List Feature) : FeatureSet :=
  let fs := features.foldl (fun fs e => fs.insert e.2 e.1) fs
  globals.foldl (fun fs f => fs.insert f .noAddress) fs

def extendMatches (order : IterOrder) (into source : MatchResults) : MatchResults :=
  (order.reorder source).entries.foldl
    (fun into e => into.upsert e.1 fun o => o.getD [] ++ e.2) into

/-- Publish each match of a unit in the unit's own features. -/
def promoteMatches (set : MatchingRuleSet) (order : IterOrder) (fs : FeatureSet)
    (results : MatchResults) : FeatureSet :=
  (order.reorder results).entries.foldl
    (fun fs e =>
      match set.get e.1 with
      | none => fs
      | some rule => e.2.foldl (fun fs r => indexRuleMatches fs rule (.singleton r.1)) fs)
    fs

/-- The loop that builds `function_and_lower_features` and `process_and_lower_features`. -/
def publishMatches (set : MatchingRuleSet)
    (entries : List (String × List (Address × MatchResult))) : FeatureSet :=
  entries.foldl
    (fun fs e =>
      match set.get e.1 with
      | none => fs
      | some rule => indexRuleMatches fs rule (.ofList (e.2.map (·.1))))
    ∅

/-- Only `noAddress` gives a feature no location. Numeric address zero is a real location. -/
def guardedInsert (fs : FeatureSet) (feature : Feature) (addr : Address) : FeatureSet :=
  if addr ≠ .noAddress then fs.insert feature addr
  else fs.upsert feature fun locs => locs.getD ∅

def seedFile (fileFeatures : List Located) (globals : List Feature) : FeatureSet :=
  let fs := fileFeatures.foldl (fun fs e => guardedInsert fs e.2 e.1) (∅ : FeatureSet)
  globals.foldl (fun fs f => guardedInsert fs f .noAddress) fs

def findFileCapabilities [RegexBackend] (set : MatchingRuleSet) (fileFeatures : List Located)
    (globals : List Feature) (lower : FeatureSet) : Except EngineError (MatchResults × Nat) := do
  let features := (seedFile fileFeatures globals).merge lower
  let featureCount := features.len
  let results ← set.matchScopeResults .file features .noAddress
  return (results, featureCount)

/-! ## Collecting matches -/

/-- Two maps of matches that no lookup tells apart. -/
def MatchResults.Same (m m' : MatchResults) : Prop := ∀ name, m.get? name = m'.get? name

theorem get?_extendMatches (order : IterOrder) (into source : MatchResults) (name : String) :
    (extendMatches order into source).get? name =
      match source.get? name with
      | none => into.get? name
      | some res => some ((into.get? name).getD [] ++ res) := by
  have hmerge : extendMatches order into source =
      into.mergeWith (· ++ ·) (order.reorder source) := by
    unfold extendMatches IndexMap.mergeWith
    refine congrArg (fun f => List.foldl f into (order.reorder source).entries) ?_
    funext acc e
    refine congrArg (acc.upsert e.1) ?_
    funext o
    cases o with
    | none => rfl
    | some res => rfl
  rw [hmerge, IndexMap.get?_mergeWith, order.get?_reorder]
  cases source.get? name with
  | none => rfl
  | some res =>
    cases into.get? name with
    | none => rfl
    | some res' => rfl

theorem MatchResults.Same.extend {order order' : IterOrder} {into into' source source' : MatchResults}
    (hi : MatchResults.Same into into') (hs : MatchResults.Same source source') :
    MatchResults.Same (extendMatches order into source) (extendMatches order' into' source') := by
  intro name
  rw [get?_extendMatches, get?_extendMatches, hi name, hs name]

/-! ## Publishing matches -/

/-- What the promotion of a map of matches publishes: each match at its own address. -/
def promotions (set : MatchingRuleSet) (results : MatchResults) :
    List (List String × OrdSet Address) :=
  results.entries.flatMap fun e =>
    match set.get e.1 with
    | none => []
    | some rule => e.2.map fun r => (rule.published, .singleton r.1)

theorem promoteMatches_eq (set : MatchingRuleSet) (order : IterOrder) (fs : FeatureSet)
    (results : MatchResults) :
    promoteMatches set order fs results = fs.publishAll (promotions set (order.reorder results)) := by
  unfold promoteMatches promotions FeatureSet.publishAll
  rw [List.foldl_flatMap]
  refine congrArg (fun f => List.foldl f fs (order.reorder results).entries) ?_
  funext acc e
  cases set.get e.1 with
  | none => rfl
  | some rule =>
    simp only [List.foldl_map, indexRuleMatches_eq]

/-- What the file-level loop publishes: each rule at all addresses of its entry. -/
def publications (set : MatchingRuleSet) (entries : List (String × List (Address × MatchResult))) :
    List (List String × OrdSet Address) :=
  entries.flatMap fun e =>
    match set.get e.1 with
    | none => []
    | some rule => [(rule.published, .ofList (e.2.map (·.1)))]

theorem publishMatches_eq (set : MatchingRuleSet)
    (entries : List (String × List (Address × MatchResult))) :
    publishMatches set entries = FeatureSet.publishAll ∅ (publications set entries) := by
  unfold publishMatches publications FeatureSet.publishAll
  rw [List.foldl_flatMap]
  refine congrArg (fun f => List.foldl f ∅ entries) ?_
  funext acc e
  cases set.get e.1 with
  | none => rfl
  | some rule => exact indexRuleMatches_eq acc rule _

theorem mem_promotions {set : MatchingRuleSet} {order : IterOrder} {results : MatchResults}
    {p : List String × OrdSet Address} :
    p ∈ promotions set (order.reorder results) ↔
      ∃ name res rule, results.get? name = some res ∧ set.get name = some rule ∧
        ∃ r ∈ res, p = (rule.published, .singleton r.1) := by
  unfold promotions
  rw [List.mem_flatMap]
  constructor
  · intro ⟨e, he, hp⟩
    cases hg : set.get e.1 with
    | none =>
      rw [hg] at hp
      exact absurd hp List.not_mem_nil
    | some rule =>
      rw [hg] at hp
      obtain ⟨r, hr, hp⟩ := List.mem_map.mp hp
      exact ⟨e.1, e.2, rule, (order.mem_reorder results e).mp he, hg, r, hr, hp.symm⟩
  · intro ⟨name, res, rule, hres, hg, r, hr, hp⟩
    refine ⟨(name, res), (order.mem_reorder results (name, res)).mpr hres, ?_⟩
    rw [hg]
    exact List.mem_map.mpr ⟨r, hr, hp.symm⟩

theorem mem_publications {set : MatchingRuleSet}
    {entries : List (String × List (Address × MatchResult))} {p : List String × OrdSet Address} :
    p ∈ publications set entries ↔
      ∃ name res rule, (name, res) ∈ entries ∧ set.get name = some rule ∧
        p = (rule.published, .ofList (res.map (·.1))) := by
  unfold publications
  rw [List.mem_flatMap]
  constructor
  · intro ⟨e, he, hp⟩
    cases hg : set.get e.1 with
    | none =>
      rw [hg] at hp
      exact absurd hp List.not_mem_nil
    | some rule =>
      rw [hg] at hp
      exact ⟨e.1, e.2, rule, he, hg, List.mem_singleton.mp hp⟩
  · intro ⟨name, res, rule, he, hg, hp⟩
    refine ⟨(name, res), he, ?_⟩
    rw [hg]
    exact List.mem_singleton.mpr hp

/-! ## Alike feature sets through the steps -/

section

variable {fs fs' : FeatureSet}

theorem seed_alike (h : fs.Alike fs') (features : List Located) (globals : List Feature) :
    (seed fs features globals).Alike (seed fs' features globals) := by
  have hfold : ∀ {α : Type} (f : α → Feature) (a : α → Address) (l : List α) {fs fs' : FeatureSet},
      fs.Alike fs' → (l.foldl (fun fs e => fs.insert (f e) (a e)) fs).Alike
        (l.foldl (fun fs e => fs.insert (f e) (a e)) fs') := by
    intro α f a l
    induction l with
    | nil => exact fun h => h
    | cons e l ih => exact fun h => ih (h.upsert _ _)
  exact hfold (fun f => f) (fun _ => .noAddress) globals (hfold (·.2) (·.1) features h)

theorem promoteMatches_alike {set : MatchingRuleSet} {order order' : IterOrder}
    {results results' : MatchResults} (h : fs.Alike fs') (hr : results.Same results') :
    (promoteMatches set order fs results).Alike (promoteMatches set order' fs' results') := by
  rw [promoteMatches_eq, promoteMatches_eq]
  refine h.publishAll fun p => ?_
  rw [mem_promotions, mem_promotions]
  simp only [hr _]

theorem publishMatches_alike {set : MatchingRuleSet}
    {entries entries' : List (String × List (Address × MatchResult))}
    (h : ∀ e, e ∈ entries ↔ e ∈ entries') :
    (publishMatches set entries).Alike (publishMatches set entries') := by
  rw [publishMatches_eq, publishMatches_eq]
  refine FeatureSet.Alike.publishAll (.refl ∅) fun p => ?_
  rw [mem_publications, mem_publications]
  simp only [h]

variable [RegexBackend]

/-- The matcher does the same on feature sets that are alike. -/
theorem matchScope_alike [ComDatabase] {rules : List Rule} {set : MatchingRuleSet} {scope : Scope}
    {addr : Address} (hset : MatchingRuleSet.new rules = .ok set) (h : fs.Alike fs') :
    Control.Related (· = ·) (set.matchScopeResults scope fs addr)
      (set.matchScopeResults scope fs' addr) := by
  obtain ⟨_, es, hes, rfl⟩ := MatchingRuleSet.new_ok hset
  unfold MatchingRuleSet.matchScopeResults
  rw [MatchingRuleSet.matchScope_ofExpanded hes, MatchingRuleSet.matchScope_ofExpanded hes]
  refine Control.Related.bind (R := fun out out' => out.1.Alike out'.1 ∧ out.2 = out'.2) ?_
    fun out out' ho => .ok ho.2
  refine Control.Related.foldlM ⟨h, rfl⟩ fun rule _ acc acc' hacc => ?_
  obtain ⟨hfs, hres⟩ := hacc
  refine Control.Related.bind (.of_eq (hfs.evaluateBoolean rule.body)) fun b b' hb => ?_
  subst hb
  cases b with
  | false => exact .ok ⟨hfs, hres⟩
  | true =>
    refine Control.Related.bind (.of_eq (hfs.evaluate rule.body)) fun full full' hfull => ?_
    subst hfull
    refine .ok ⟨?_, by rw [hres]⟩
    have hpub : ∀ g : FeatureSet, indexRuleMatches g rule (.singleton addr) =
        g.publishAll [(rule.published, .singleton addr)] := fun g =>
      indexRuleMatches_eq g rule _
    show (indexRuleMatches acc.1 rule (.singleton addr)).Alike
      (indexRuleMatches acc'.1 rule (.singleton addr))
    rw [hpub, hpub]
    exact hfs.publishAll fun _ => Iff.rfl

end

end CapaX
