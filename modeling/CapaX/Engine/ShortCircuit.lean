import CapaX.Engine.Reading

/-
  `evaluateBoolean` is `evaluate` with its evidence thrown away: on every body, whatever stands in
  it, the outcome of the first is the success flag of the short-circuiting second, and where one
  reaches a statement without a meaning the other reaches it too and fails alike. The loops are
  compared child by child, with the outcomes of the children as a hypothesis.
-/

namespace CapaX

open Collections

section

variable [RegexBackend] {fs : FeatureSet} {cs : List Node}

/-! ## Leaves -/

theorem evalLeaf_outcome (f : Feature) (sc : Bool) (d : Option String) :
    (evalLeaf f fs sc d).map (·.success) = leafBoolean fs f := by
  by_cases hcom : ∃ kind name, f = .com kind name
  · obtain ⟨kind, name, rfl⟩ := hcom
    rfl
  · have hf : ∀ kind name, f ≠ .com kind name := fun kind name he => hcom ⟨kind, name, he⟩
    have hr : ∃ r, evalLeaf f fs sc d = .ok r ∧ r.success = leafHolds fs f := evalLeaf_success hf
    obtain ⟨r, hr, hs⟩ := hr
    rw [hr, leafBoolean_eq hf, ← hs]
    rfl

/-! ## Loops -/

/-- The two evaluators agree on a node. -/
def SameOutcome (fs : FeatureSet) (n : Node) : Prop :=
  evaluateBoolean fs n = (evaluate fs true n).map (·.success)

theorem everyBoolean_outcome (h : ∀ c ∈ cs, SameOutcome fs c) :
    everyBoolean fs cs = (evalUntil fs false cs).map (!·.2) := by
  induction cs with
  | nil => rfl
  | cons c cs ih =>
    have hc : evaluateBoolean fs c = _ := h c List.mem_cons_self
    have ih := ih fun x hx => h x (List.mem_cons_of_mem _ hx)
    rw [everyBoolean, evalUntil, hc, ih]
    cases evaluate fs true c with
    | error e => rfl
    | ok r =>
      show (if r.success then _ else pure false) = Except.map _ (if r.success = false then _ else _)
      cases r.success with
      | false => rfl
      | true =>
        cases evalUntil fs false cs <;> rfl

theorem someBoolean_outcome (h : ∀ c ∈ cs, SameOutcome fs c) :
    someBoolean fs cs = (evalUntil fs true cs).map (·.2) := by
  induction cs with
  | nil => rfl
  | cons c cs ih =>
    have hc : evaluateBoolean fs c = _ := h c List.mem_cons_self
    have ih := ih fun x hx => h x (List.mem_cons_of_mem _ hx)
    rw [someBoolean, evalUntil, hc, ih]
    cases evaluate fs true c with
    | error e => rfl
    | ok r =>
      show (if r.success then pure true else _) = Except.map _ (if r.success = true then _ else _)
      cases r.success with
      | true => rfl
      | false =>
        cases evalUntil fs true cs <;> rfl

/-- Both counters start alike and stay alike, and both are compared after every child. -/
theorem countBoolean_outcome (count satisfied : UInt32) (h : ∀ c ∈ cs, SameOutcome fs c) :
    countBoolean fs count satisfied cs = (evalCount fs count satisfied cs).map (·.2) := by
  induction cs generalizing satisfied with
  | nil => rfl
  | cons c cs ih =>
    have hc : evaluateBoolean fs c = _ := h c List.mem_cons_self
    have ih := fun s => ih s fun x hx => h x (List.mem_cons_of_mem _ hx)
    rw [countBoolean, evalCount, hc]
    cases evaluate fs true c with
    | error e => rfl
    | ok r =>
      let next : UInt32 := if r.success then satisfied + 1 else satisfied
      show (if count ≤ next then pure true else countBoolean fs count next cs) =
        Except.map (fun p : List MatchResult × Bool => p.2) (if count ≤ next then _ else _)
      rw [ih]
      split
      · rfl
      · cases evalCount fs count next cs <;> rfl

/-! ## Bodies -/

/-- `evaluate_boolean` is the outcome of the short-circuiting `evaluate`, errors included. -/
theorem evaluateBoolean_eq_evaluate (fs : FeatureSet) (n : Node) :
    evaluateBoolean fs n = (evaluate fs true n).map (·.success) := by
  induction n using Node.induct with
  | and cs d ih =>
    rw [evaluateBoolean, evaluate, everyBoolean_outcome ih, if_pos rfl]
    cases evalUntil fs false cs <;> rfl
  | or cs d ih =>
    rw [evaluateBoolean, evaluate, someBoolean_outcome ih, if_pos rfl]
    cases evalUntil fs true cs <;> rfl
  | not c d ih =>
    rw [evaluateBoolean, evaluate, ih]
    cases evaluate fs true c <;> rfl
  | some count cs d ih =>
    rw [evaluateBoolean, evaluate, countBoolean_outcome count 0 ih, if_pos rfl]
    cases evalCount fs count 0 cs <;> rfl
  | range f min max d =>
    rw [evaluateBoolean, evaluate]
    exact congrArg Except.ok evalRange_success.symm
  | subscope s b d ih =>
    rw [evaluateBoolean, evaluate]
    rfl
  | leaf f d =>
    rw [evaluateBoolean, evaluate]
    exact (evalLeaf_outcome f true d).symm

end

end CapaX
