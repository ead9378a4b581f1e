import CapaX.Engine.FeatureSets
import CapaX.Engine.Reading

/-
  What the evidence of a body depends on: the lookups of the features the body can see, and the
  entries the scanning leaves walk over, in order, which are never match features. Two feature
  sets that agree on these (`FeatureSet.Agree`) give a body one truth and one evidence tree
  (`evaluate_congr`).
-/

namespace CapaX

open Collections

def Feature.isMatchedRule : Feature → Bool
  | .matchedRule _ => true
  | _ => false

namespace FeatureSet

/-- The entries the scanning leaves look at. -/
def scanned (fs : FeatureSet) : List (Feature × OrdSet Address) :=
  fs.entries.filter fun e => !e.1.isMatchedRule

/-- Two feature sets that a body with the match values `vs` cannot tell apart. -/
structure Agree (fs fs' : FeatureSet) (vs : String → Prop) : Prop where
  lookup : ∀ f, (∀ v, f = .matchedRule v → vs v) → fs.get? f = fs'.get? f
  scanned : fs.scanned = fs'.scanned

theorem Agree.mono {fs fs' : FeatureSet} {vs ws : String → Prop} (h : fs.Agree fs' vs)
    (hw : ∀ v, ws v → vs v) : fs.Agree fs' ws :=
  ⟨fun f hf => h.lookup f fun v hv => hw v (hf v hv), h.scanned⟩

theorem scanned_insertMany {fs : FeatureSet} {v : String} {locs : OrdSet Address} :
    (fs.insertMany (.matchedRule v) locs).scanned = fs.scanned := by
  show (IndexMap.upsertList _ _ _).filter _ = fs.entries.filter _
  induction fs.entries with
  | nil => rfl
  | cons e es ih =>
    rw [IndexMap.upsertList]
    by_cases he : (e.1 == Feature.matchedRule v) = true
    · rw [if_pos he]
      have hkey : e.1 = .matchedRule v := Feature.matchedRule_beq_iff.mp (BEq.symm he)
      rw [List.filter_cons, List.filter_cons, hkey]
      rfl
    · rw [if_neg he, List.filter_cons, List.filter_cons, ih]

theorem scanned_publish {fs : FeatureSet} {values : List String} {locs : OrdSet Address} :
    (fs.publish values locs).scanned = fs.scanned := by
  induction values generalizing fs with
  | nil => rfl
  | cons v values ih => exact ih.trans scanned_insertMany

end FeatureSet

section

variable [RegexBackend]

theorem scanStrings_scanned {m : StringMatch} {needle : String} {sc : Bool}
    (es : List (Feature × OrdSet Address)) (acc : Bool × OrdSet Address × Captures) :
    scanStrings m needle sc es acc =
      scanStrings m needle sc (es.filter fun e => !e.1.isMatchedRule) acc := by
  induction es generalizing acc with
  | nil => rfl
  | cons e es ih =>
    obtain ⟨f, locs⟩ := e
    obtain ⟨any, locations, captures⟩ := acc
    by_cases hf : f.isMatchedRule = true
    · have hskip : stringValue f = none := by
        cases f <;> first | rfl | cases hf
      rw [List.filter_cons, hf, scanStrings, hskip]
      exact ih _
    · rw [List.filter_cons, Bool.eq_false_iff.mpr hf]
      show _ = scanStrings m needle sc ((f, locs) :: es.filter _) (any, locations, captures)
      unfold scanStrings
      cases stringValue f with
      | none => exact ih _
      | some haystack =>
        dsimp only
        rw [ih, ih]

omit [RegexBackend] in
theorem find?_scanned {p : Feature → Bool} (hp : ∀ v, p (.matchedRule v) = false)
    (es : List (Feature × OrdSet Address)) :
    es.find? (fun e => p e.1) =
      (es.filter fun e => !e.1.isMatchedRule).find? fun e => p e.1 := by
  rw [List.find?_filter]
  refine congrArg (fun q => List.find? q es) ?_
  funext e
  cases he : e.1.isMatchedRule with
  | false => simp
  | true =>
    obtain ⟨v, hv⟩ : ∃ v, e.1 = .matchedRule v := by
      cases h : e.1 <;> first | exact ⟨_, rfl⟩ | (rw [h] at he; cases he)
    simp [hv, hp]

/-- Feature sets that agree give a leaf one evidence. -/
theorem evalLeaf_congr {fs fs' : FeatureSet} {f : Feature} {sc : Bool} {d : Option String}
    (hget : ∀ g, (∀ v, g = .matchedRule v → f = g) → fs.get? g = fs'.get? g)
    (hscan : fs.scanned = fs'.scanned) : evalLeaf f fs sc d = evalLeaf f fs' sc d := by
  have hstrings : ∀ needle m, evalStringScan f needle m fs sc d =
      evalStringScan f needle m fs' sc d := by
    intro needle m
    unfold evalStringScan
    rw [scanStrings_scanned fs.entries, scanStrings_scanned fs'.entries]
    have hscan : fs.entries.filter (fun e => !e.1.isMatchedRule) =
      fs'.entries.filter (fun e => !e.1.isMatchedRule) := hscan
    rw [hscan]
  have hfirst : ∀ p : Feature → Bool, (∀ v, p (.matchedRule v) = false) →
      evalFirst f p fs d = evalFirst f p fs' d := by
    intro p hp
    have hscan : fs.entries.filter (fun e => !e.1.isMatchedRule) =
      fs'.entries.filter (fun e => !e.1.isMatchedRule) := hscan
    unfold evalFirst
    rw [find?_scanned hp fs.entries, find?_scanned hp fs'.entries, hscan]
  have hexact : evalExact f fs d = evalExact f fs' d := by
    unfold evalExact
    rw [hget f fun _ _ => rfl]
  unfold evalLeaf
  split
  · exact congrArg Except.ok (hstrings _ _)
  · exact congrArg Except.ok (hstrings _ _)
  · exact congrArg Except.ok (hfirst _ fun _ => rfl)
  · exact congrArg Except.ok (hfirst _ fun _ => rfl)
  · rfl
  · exact congrArg Except.ok hexact

/-- Feature sets that agree on what a body can see give it one evidence tree. -/
theorem evaluate_congr {fs fs' : FeatureSet} {n : Node} (h : fs.Agree fs' (· ∈ n.observed)) :
    evaluate fs false n = evaluate fs' false n := by
  have hall : ∀ cs : List Node, (∀ c ∈ cs, evaluate fs false c = evaluate fs' false c) →
      evalAll fs cs = evalAll fs' cs := by
    intro cs ih
    induction cs with
    | nil => rfl
    | cons c cs ihcs =>
      rw [evalAll, evalAll, ih c List.mem_cons_self,
        ihcs fun c' hc' => ih c' (List.mem_cons_of_mem _ hc')]
  induction n using Node.induct with
  | and cs d ih =>
    have hcs := hall cs fun c hc => ih c hc
      (h.mono fun v hv => Node.mem_observed_and.mpr ⟨c, hc, hv⟩)
    rw [evaluate, evaluate, hcs]
    rfl
  | or cs d ih =>
    have hcs := hall cs fun c hc => ih c hc
      (h.mono fun v hv => Node.mem_observed_or.mpr ⟨c, hc, hv⟩)
    rw [evaluate, evaluate, hcs]
    rfl
  | not c d ih =>
    rw [evaluate, evaluate, ih (h.mono fun v hv => Node.mem_observed_not.mpr hv)]
  | some n cs d ih =>
    have hcs := hall cs fun c hc => ih c hc
      (h.mono fun v hv => Node.mem_observed_some.mpr ⟨c, hc, hv⟩)
    rw [evaluate, evaluate, hcs]
    rfl
  | range f min max d =>
    have hget : fs.get? f = fs'.get? f :=
      h.lookup f fun v hv => Node.mem_observed_range.mpr hv
    rw [evaluate, evaluate, evalRange, evalRange, locationCount, locationCount, hget]
  | subscope s b d ih => rw [evaluate, evaluate]
  | leaf f d =>
    rw [evaluate, evaluate]
    refine evalLeaf_congr (fun g hg => h.lookup g fun v hv => ?_) h.scanned
    exact Node.mem_observed_leaf.mpr ((hg v hv).trans hv)

/-- Feature sets that agree on what a body can see give it one truth. -/
theorem evaluateBoolean_congr {fs fs' : FeatureSet} {n : Node} (hn : n.Evaluable)
    (h : fs.Agree fs' (· ∈ n.observed)) : evaluateBoolean fs n = evaluateBoolean fs' n := by
  rw [evaluateBoolean_eq hn, evaluateBoolean_eq hn, reads_reading_congr h.lookup]

end

end CapaX
