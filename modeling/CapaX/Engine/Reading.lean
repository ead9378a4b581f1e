import CapaX.Engine

/-
  What a body says, apart from how it is evaluated. A `Reading` fixes the truth of the leaves,
  the counts and the subscopes and how many children satisfy a `some`; `Node.reads` is the truth
  of a body under it. Both passes of the engine are readings of the feature set, on bodies
  without a subscope and without a COM leaf (`Node.Evaluable`):

  * `evaluateBoolean_eq`: the first pass returns `n.reads fs.reading`;
  * `evaluate_full`: the pass that collects all evidence succeeds as `n.reads fs.fullReading`.

  The two differ in `some` alone: the first compares its counter after each child, so it never
  accepts an empty list of children, and the other compares a 32-bit count once at the end.
-/

namespace CapaX

open Collections

/-- The truth of what stands at the leaves of a body, and of the counting connective. -/
structure Reading where
  leaf : Feature → Bool
  range : Feature → UInt32 → Option UInt32 → Bool
  subscope : Scope → Node → Bool
  some : UInt32 → List Bool → Bool

/-- Neither a subscope nor a COM leaf, the two statements the engine has no meaning for. -/
def Statement.evaluable : Statement Node → Bool
  | .subscope _ _ | .leaf (.com _ _) => false
  | _ => true

/-- Readings agree on a statement when they agree on what it says itself. -/
def Reading.AgreeAt (R R' : Reading) : Statement Node → Prop
  | .range f min max => R.range f min max = R'.range f min max
  | .subscope s b => R.subscope s b = R'.subscope s b
  | .leaf f => R.leaf f = R'.leaf f
  | .some n _ => R.some n = R'.some n
  | .and _ | .or _ | .not _ => True

namespace Node

mutual

def reads (R : Reading) : Node → Bool
  | ⟨.and cs, _⟩ => (readsAll R cs).all id
  | ⟨.or cs, _⟩ => (readsAll R cs).any id
  | ⟨.not c, _⟩ => !reads R c
  | ⟨.some n cs, _⟩ => R.some n (readsAll R cs)
  | ⟨.range f min max, _⟩ => R.range f min max
  | ⟨.subscope s b, _⟩ => R.subscope s b
  | ⟨.leaf f, _⟩ => R.leaf f

def readsAll (R : Reading) : List Node → List Bool
  | [] => []
  | c :: cs => reads R c :: readsAll R cs

end

theorem readsAll_eq (R : Reading) (cs : List Node) : readsAll R cs = cs.map (reads R) := by
  induction cs with
  | nil => rfl
  | cons c cs ih => rw [readsAll, ih, List.map_cons]

section

variable {R : Reading} {cs : List Node} {d : Option String}

@[simp] theorem reads_and : reads R ⟨.and cs, d⟩ = cs.all (reads R) := by
  rw [reads, readsAll_eq, List.all_map]; rfl

@[simp] theorem reads_or : reads R ⟨.or cs, d⟩ = cs.any (reads R) := by
  rw [reads, readsAll_eq, List.any_map]; rfl

@[simp] theorem reads_not {c : Node} : reads R ⟨.not c, d⟩ = !reads R c := by rw [reads]

@[simp] theorem reads_some {n : UInt32} :
    reads R ⟨.some n cs, d⟩ = R.some n (cs.map (reads R)) := by rw [reads, readsAll_eq]

@[simp] theorem reads_range {f : Feature} {min : UInt32} {max : Option UInt32} :
    reads R ⟨.range f min max, d⟩ = R.range f min max := by rw [reads]

@[simp] theorem reads_subscope {s : Scope} {b : Node} :
    reads R ⟨.subscope s b, d⟩ = R.subscope s b := by rw [reads]

@[simp] theorem reads_leaf {f : Feature} : reads R ⟨.leaf f, d⟩ = R.leaf f := by rw [reads]

end

/-- Readings that agree at every statement of a body give it one truth. -/
theorem reads_congr {R R' : Reading} {n : Node} (h : n.Everywhere (Reading.AgreeAt R R')) :
    n.reads R = n.reads R' := by
  induction n using induct with
  | and cs d ih =>
    have hcs := (everywhere_iff.mp h).2
    rw [reads_and, reads_and, Bool.eq_iff_iff, List.all_eq_true, List.all_eq_true]
    exact forall₂_congr fun c hc => by rw [ih c hc (hcs c hc)]
  | or cs d ih =>
    have hcs := (everywhere_iff.mp h).2
    rw [reads_or, reads_or, Bool.eq_iff_iff, List.any_eq_true, List.any_eq_true]
    exact exists_congr fun c => and_congr_right fun hc => by rw [ih c hc (hcs c hc)]
  | not c d ih =>
    have hc := (everywhere_iff.mp h).2 c (List.mem_singleton.mpr rfl)
    rw [reads_not, reads_not, ih hc]
  | some n cs d ih =>
    obtain ⟨hn, hcs⟩ := everywhere_iff.mp h
    have hn : R.some n = R'.some n := hn
    rw [reads_some, reads_some, hn, List.map_congr_left fun c hc => ih c hc (hcs c hc)]
  | range f min max d => rw [reads_range, reads_range]; exact (everywhere_iff.mp h).1
  | subscope s b d ih => rw [reads_subscope, reads_subscope]; exact (everywhere_iff.mp h).1
  | leaf f d => rw [reads_leaf, reads_leaf]; exact (everywhere_iff.mp h).1

/-! ## Bodies no pass fails on -/

/-- No subscope and no COM leaf anywhere in the body. -/
def Evaluable (n : Node) : Prop := n.Everywhere fun s => Statement.evaluable s = true

instance (n : Node) : Decidable n.Evaluable :=
  inferInstanceAs (Decidable (n.Everywhere _))

theorem Evaluable.children {n c : Node} (h : n.Evaluable) (hc : c ∈ n.stmt.children) :
    c.Evaluable := (everywhere_iff.mp h).2 c hc

theorem not_evaluable_subscope {s : Scope} {b : Node} {d : Option String} :
    ¬ Evaluable ⟨.subscope s b, d⟩ := fun h => by
  have : Statement.evaluable (.subscope s b) = true := (everywhere_iff.mp h).1
  cases this

theorem Evaluable.not_com {f : Feature} {d : Option String} (h : Evaluable ⟨.leaf f, d⟩)
    (kind : ComKind) (name : String) : f ≠ .com kind name := by
  rintro rfl
  have : Statement.evaluable (.leaf (.com kind name)) = true := (everywhere_iff.mp h).1
  cases this

end Node

/-! ## The two passes -/

/-- The first pass: at least `count` children and at least one child, since the counter is only
    looked at after a child. -/
def quorum (count : UInt32) (bs : List Bool) : Bool :=
  !bs.isEmpty && decide (count.toNat ≤ bs.count true)

/-- The second pass: the satisfied children are counted as a `u32`. -/
def fullQuorum (count : UInt32) (bs : List Bool) : Bool :=
  decide (count ≤ UInt32.ofNat (bs.count true))

/-! ## Leaves -/

/-- A key that equals itself is found in every set with the same lookup. -/
theorem key_of_get?_eq {fs fs' : FeatureSet} {k : Feature} (hk : k ∈ fs.keys)
    (hkk : (k == k) = true) (h : fs.get? k = fs'.get? k) : ∃ k' ∈ fs'.keys, (k' == k) = true := by
  rw [← IndexMap.containsKey_iff, IndexMap.containsKey_eq_isSome, ← h,
    ← IndexMap.containsKey_eq_isSome, IndexMap.containsKey_iff]
  exact ⟨k, hk, hkk⟩

/-- Equal features carry the same text. -/
theorem stringValue_congr {f g : Feature} (h : (f == g) = true) :
    stringValue f = stringValue g := by
  rcases Feature.beq_iff.mp h with ⟨x, y, rfl, rfl, _⟩ | ⟨i, x, y, rfl, rfl, _⟩ |
    ⟨x, y, rfl, rfl, hr⟩ | ⟨_, rfl⟩
  · rfl
  · rfl
  · exact congrArg some hr
  · rfl

theorem beq_self_of_stringValue {f : Feature} {v : String} (h : stringValue f = some v) :
    (f == f) = true := by
  unfold stringValue at h
  split at h
  · exact Feature.beq_self rfl
  · exact Feature.beq_self rfl
  · exact Feature.beq_iff.mpr (Or.inr (Or.inr (Or.inl ⟨_, _, rfl, rfl, rfl⟩)))
  · cases h

theorem any_keys_congr {fs fs' : FeatureSet} {p : Feature → Bool}
    (h : ∀ k, p k = true → fs.get? k = fs'.get? k)
    (hp : ∀ k k', p k = true → (k == k) = true ∧ ((k' == k) = true → p k' = true)) :
    fs.keys.any p = fs'.keys.any p := by
  rw [Bool.eq_iff_iff, List.any_eq_true, List.any_eq_true]
  constructor
  · rintro ⟨k, hk, hpk⟩
    obtain ⟨k', hk', he⟩ := key_of_get?_eq hk (hp k k hpk).1 (h k hpk)
    exact ⟨k', hk', (hp k k' hpk).2 he⟩
  · rintro ⟨k, hk, hpk⟩
    obtain ⟨k', hk', he⟩ := key_of_get?_eq hk (hp k k hpk).1 (h k hpk).symm
    exact ⟨k', hk', (hp k k' hpk).2 he⟩

/-- The same for a predicate that is false of match features and of those features whose
    equality is not equality of values. -/
theorem any_values_congr {fs fs' : FeatureSet} {p : Feature → Bool}
    (h : ∀ g, (∀ v, g ≠ .matchedRule v) → fs.get? g = fs'.get? g)
    (hp : ∀ k, p k = true → k.comparesLoosely = false ∧ ∀ v, k ≠ .matchedRule v) :
    fs.keys.any p = fs'.keys.any p :=
  any_keys_congr (fun k hk => h k (hp k hk).2) fun _ _ hk =>
    ⟨Feature.beq_self (hp _ hk).1, fun he => by rwa [← Feature.eq_of_beq (hp _ hk).1 (BEq.symm he)]⟩

theorem evalFirst_success {query : Feature} {p : Feature → Bool} {fs : FeatureSet}
    {d : Option String} : (evalFirst query p fs d).success = fs.keys.any p := by
  have hany : fs.keys.any p = (fs.entries.find? fun e => p e.1).isSome := by
    rw [IndexMap.keys, List.any_map, Bool.eq_iff_iff, List.find?_isSome, List.any_eq_true]
    rfl
  unfold evalFirst
  rw [hany]
  cases fs.entries.find? fun e => p e.1 <;> rfl

theorem evalExact_success {f : Feature} {fs : FeatureSet} {d : Option String} :
    (evalExact f fs d).success = fs.containsKey f := by
  unfold evalExact
  rw [IndexMap.containsKey_eq_isSome]
  cases fs.get? f <;> rfl

/-- A count that is zero by absence counts as zero in range too. -/
theorem evalRange_success {f : Feature} {min : UInt32} {max : Option UInt32} {fs : FeatureSet}
    {d : Option String} :
    (evalRange f min max fs d).success = inRange (locationCount fs f) min max := by
  unfold evalRange
  by_cases h : min = 0 ∧ locationCount fs f = 0
  · obtain ⟨hm, hc⟩ := h
    subst hm
    simp only [hc, and_self, if_true]
    cases max <;> simp [inRange, MatchResult.ofLeaf]
  · simp only [h, if_false]
    rfl

theorem filterMap_keys (fs : FeatureSet) :
    fs.keys.filterMap stringValue = fs.entries.filterMap fun e => stringValue e.1 := by
  rw [IndexMap.keys, List.filterMap_map]
  rfl

section

variable [RegexBackend]

/-- The truth of a leaf on a feature set; a COM leaf has none. -/
def leafHolds (fs : FeatureSet) (feature : Feature) : Bool :=
  match leafBoolean fs feature with
  | .ok b => b
  | .error _ => false

theorem leafBoolean_eq {fs : FeatureSet} {f : Feature}
    (h : ∀ kind name, f ≠ .com kind name) : leafBoolean fs f = .ok (leafHolds fs f) := by
  unfold leafHolds
  split
  · next h' => exact h'
  · next e h' =>
    unfold leafBoolean at h'
    split at h' <;> first | exact absurd rfl (h _ _) | cases h'

namespace FeatureSet

/-- The reading `evaluateBoolean` computes. -/
def reading (fs : FeatureSet) : Reading where
  leaf := leafHolds fs
  range f min max := inRange (locationCount fs f) min max
  subscope _ _ := false
  some := quorum

/-- The reading `evaluate` computes when it does not short-circuit. -/
def fullReading (fs : FeatureSet) : Reading := { fs.reading with some := fullQuorum }

end FeatureSet

theorem everyBoolean_eq {fs : FeatureSet} {b : Node → Bool} {cs : List Node}
    (h : ∀ c ∈ cs, evaluateBoolean fs c = .ok (b c)) :
    everyBoolean fs cs = .ok (cs.all b) := by
  induction cs with
  | nil => rfl
  | cons c cs ih =>
    have hc := h c List.mem_cons_self
    have hcs := ih fun x hx => h x (List.mem_cons_of_mem _ hx)
    rw [everyBoolean, hc, List.all_cons]
    show (if b c then everyBoolean fs cs else pure false) = _
    rw [hcs]
    split <;> simp_all [pure, Except.pure]

theorem someBoolean_eq {fs : FeatureSet} {b : Node → Bool} {cs : List Node}
    (h : ∀ c ∈ cs, evaluateBoolean fs c = .ok (b c)) :
    someBoolean fs cs = .ok (cs.any b) := by
  induction cs with
  | nil => rfl
  | cons c cs ih =>
    have hc := h c List.mem_cons_self
    have hcs := ih fun x hx => h x (List.mem_cons_of_mem _ hx)
    rw [someBoolean, hc, List.any_cons]
    show (if b c then pure true else someBoolean fs cs) = _
    rw [hcs]
    split <;> simp_all [pure, Except.pure]

/-- The counter stays below `count` until the loop ends, so it never overflows. -/
theorem countBoolean_eq {fs : FeatureSet} {b : Node → Bool} {count : UInt32} {cs : List Node}
    (h : ∀ c ∈ cs, evaluateBoolean fs c = .ok (b c)) (satisfied : UInt32)
    (hs : satisfied.toNat < count.toNat ∨ satisfied.toNat = 0) :
    countBoolean fs count satisfied cs =
      .ok (!cs.isEmpty && decide (count.toNat ≤ satisfied.toNat + (cs.map b).count true)) := by
  induction cs generalizing satisfied with
  | nil => rfl
  | cons c cs ih =>
    have hc := h c List.mem_cons_self
    have ih := ih fun x hx => h x (List.mem_cons_of_mem _ hx)
    have hlt := count.toNat_lt
    rw [countBoolean, hc]
    show (if count ≤ (if b c then satisfied + 1 else satisfied) then pure true
      else countBoolean fs count (if b c then satisfied + 1 else satisfied) cs) = _
    have hnext : (if b c then satisfied + 1 else satisfied).toNat =
        satisfied.toNat + (if b c then 1 else 0) := by
      split
      · rw [UInt32.toNat_add]
        have h1 : (1 : UInt32).toNat = 1 := rfl
        omega
      · rfl
    have hcount : ((c :: cs).map b).count true =
        (cs.map b).count true + (if b c then 1 else 0) := by
      rw [List.map_cons, List.count_cons]
      cases b c <;> rfl
    by_cases hle : count ≤ (if b c then satisfied + 1 else satisfied)
    · rw [if_pos hle]
      rw [UInt32.le_iff_toNat_le, hnext] at hle
      rw [decide_eq_true (by omega)]
      rfl
    · rw [if_neg hle]
      rw [UInt32.le_iff_toNat_le, hnext] at hle
      rw [ih _ (by rw [hnext]; omega), hnext, hcount]
      cases cs with
      | nil =>
        rw [decide_eq_false (by rw [List.map_nil, List.count_nil]; omega), Bool.and_false,
          decide_eq_false (by rw [List.map_nil, List.count_nil]; omega), Bool.and_false]
      | cons c' cs =>
        rw [Nat.add_assoc, Nat.add_comm (if b c then 1 else 0)]
        rfl

/-- The first pass computes the reading of the feature set. -/
theorem evaluateBoolean_eq {fs : FeatureSet} {n : Node} (h : n.Evaluable) :
    evaluateBoolean fs n = .ok (n.reads fs.reading) := by
  induction n using Node.induct with
  | and cs d ih =>
    rw [evaluateBoolean, Node.reads_and]
    exact everyBoolean_eq fun c hc => ih c hc (h.children hc)
  | or cs d ih =>
    rw [evaluateBoolean, Node.reads_or]
    exact someBoolean_eq fun c hc => ih c hc (h.children hc)
  | not c d ih =>
    rw [evaluateBoolean, Node.reads_not, ih (h.children (List.mem_singleton.mpr rfl))]
    rfl
  | some n cs d ih =>
    have hcs : ∀ c ∈ cs, evaluateBoolean fs c = .ok (c.reads fs.reading) :=
      fun c hc => ih c hc (h.children hc)
    have hc : countBoolean fs n 0 cs = _ := countBoolean_eq hcs 0 (Or.inr rfl)
    rw [evaluateBoolean, Node.reads_some, hc]
    simp [FeatureSet.reading, quorum]
  | range f min max d => rw [evaluateBoolean, Node.reads_range]; rfl
  | subscope s b d ih => exact absurd h Node.not_evaluable_subscope
  | leaf f d =>
    rw [evaluateBoolean, Node.reads_leaf]
    exact leafBoolean_eq h.not_com

/-! ## Evidence -/

theorem scanStrings_any {m : StringMatch} {needle : String} {sc : Bool}
    {es : List (Feature × OrdSet Address)} {acc : Bool × OrdSet Address × Captures} :
    (scanStrings m needle sc es acc).1 =
      (acc.1 || (es.filterMap fun e => stringValue e.1).any (m.matches needle)) := by
  induction es generalizing acc with
  | nil => simp [scanStrings]
  | cons e es ih =>
    obtain ⟨f, locs⟩ := e
    obtain ⟨any, locations, captures⟩ := acc
    unfold scanStrings
    cases hf : stringValue f with
    | none => simp [ih, hf]
    | some v =>
      by_cases hv : m.matches needle v = true
      · by_cases hsc : sc = true
        · simp [hf, hv, hsc]
        · have hsc : sc = false := Bool.eq_false_iff.mpr hsc
          simp only [hv, if_true, hsc, Bool.false_eq_true, if_false]
          rw [hsc] at ih
          rw [ih]
          simp [hf, hv]
      · simp [hf, hv, ih]

/-- A leaf's evidence succeeds exactly when the leaf holds, short-circuiting or not. -/
theorem evalLeaf_success {f : Feature} {fs : FeatureSet} {sc : Bool} {d : Option String}
    (h : ∀ kind name, f ≠ .com kind name) :
    ∃ r, evalLeaf f fs sc d = .ok r ∧ r.success = leafHolds fs f := by
  unfold evalLeaf
  split
  · refine ⟨_, rfl, ?_⟩
    unfold evalStringScan leafHolds leafBoolean
    simp only [scanStrings_any, filterMap_keys, Bool.false_or]
    rfl
  · refine ⟨_, rfl, ?_⟩
    unfold evalStringScan leafHolds leafBoolean
    simp only [scanStrings_any, filterMap_keys, Bool.false_or]
    rfl
  · exact ⟨_, rfl, evalFirst_success⟩
  · exact ⟨_, rfl, evalFirst_success⟩
  · exact absurd rfl (h _ _)
  · next h1 h2 h3 h4 h5 =>
    refine ⟨_, rfl, ?_⟩
    rw [evalExact_success, leafHolds]
    unfold leafBoolean
    split <;> simp_all

/-- The results `evalAll` collects, one for each child. -/
theorem evalAll_eq {fs : FeatureSet} {b : Node → Bool} {cs : List Node}
    (h : ∀ c ∈ cs, ∃ r, evaluate fs false c = .ok r ∧ r.success = b c) :
    ∃ rs, evalAll fs cs = .ok rs ∧ rs.map (·.success) = cs.map b := by
  induction cs with
  | nil => exact ⟨[], rfl, rfl⟩
  | cons c cs ih =>
    obtain ⟨r, hr, hb⟩ := h c List.mem_cons_self
    obtain ⟨rs, hrs, hbs⟩ := ih fun x hx => h x (List.mem_cons_of_mem _ hx)
    refine ⟨r :: rs, ?_, by rw [List.map_cons, List.map_cons, hb, hbs]⟩
    rw [evalAll, hr, hrs]
    rfl

/-- The evidence of an evaluable body is complete, and succeeds as the body reads. -/
theorem evaluate_full {fs : FeatureSet} {n : Node} (h : n.Evaluable) :
    ∃ r, evaluate fs false n = .ok r ∧ r.success = n.reads fs.fullReading := by
  induction n using Node.induct with
  | and cs d ih =>
    obtain ⟨rs, hrs, hb⟩ := evalAll_eq fun c hc => ih c hc (h.children hc)
    refine ⟨.statement (rs.all (·.success)) .and d rs, by rw [evaluate, hrs]; rfl, ?_⟩
    calc rs.all (·.success) = (rs.map (·.success)).all id := by rw [List.all_map]; rfl
      _ = cs.all (Node.reads fs.fullReading) := by rw [hb, List.all_map]; rfl
      _ = _ := Node.reads_and.symm
  | or cs d ih =>
    obtain ⟨rs, hrs, hb⟩ := evalAll_eq fun c hc => ih c hc (h.children hc)
    refine ⟨.statement (rs.any (·.success)) .or d rs, by rw [evaluate, hrs]; rfl, ?_⟩
    calc rs.any (·.success) = (rs.map (·.success)).any id := by rw [List.any_map]; rfl
      _ = cs.any (Node.reads fs.fullReading) := by rw [hb, List.any_map]; rfl
      _ = _ := Node.reads_or.symm
  | not c d ih =>
    obtain ⟨r, hr, hb⟩ := ih (h.children (List.mem_singleton.mpr rfl))
    refine ⟨.statement (!r.success) .not d [r], by rw [evaluate, hr]; rfl, ?_⟩
    rw [Node.reads_not, ← hb]
    rfl
  | some n cs d ih =>
    obtain ⟨rs, hrs, hb⟩ := evalAll_eq fun c hc => ih c hc (h.children hc)
    refine ⟨_, by rw [evaluate, hrs]; rfl, ?_⟩
    have hcount : rs.countP (·.success) = (cs.map (Node.reads fs.fullReading)).count true := by
      rw [← hb, List.count, List.countP_map]
      refine List.countP_congr fun r _ => ?_
      simp
    rw [Node.reads_some]
    show decide (n ≤ UInt32.ofNat (rs.countP (·.success))) = _
    rw [hcount]
    rfl
  | range f min max d =>
    refine ⟨_, by rw [evaluate], ?_⟩
    rw [evalRange_success, Node.reads_range]
    rfl
  | subscope s b d ih => exact absurd h Node.not_evaluable_subscope
  | leaf f d =>
    have hf : ∃ r, evalLeaf f fs false d = .ok r ∧ r.success = leafHolds fs f :=
      evalLeaf_success h.not_com
    obtain ⟨r, hr, hb⟩ := hf
    exact ⟨r, by rw [evaluate, hr], by rw [hb, Node.reads_leaf]; rfl⟩

/-! ## What a reading depends on -/

/-- A leaf looks at the keys of its own family, or at its own key. -/
theorem leafBoolean_congr {fs fs' : FeatureSet} {f : Feature}
    (h : ∀ g, (∀ v, g = .matchedRule v → f = g) → fs.get? g = fs'.get? g) :
    leafBoolean fs f = leafBoolean fs' f := by
  have hstr : ∀ q : String → Bool, (fs.keys.filterMap stringValue).any q =
      (fs'.keys.filterMap stringValue).any q := by
    intro q
    rw [List.any_filterMap, List.any_filterMap]
    refine any_keys_congr (fun k hk => h k ?_) (fun k k' hk => ?_)
    · rintro v rfl
      cases hk
    · cases hv : stringValue k with
      | none => rw [hv] at hk; cases hk
      | some v =>
        refine ⟨beq_self_of_stringValue hv, fun he => ?_⟩
        rw [stringValue_congr he]
        exact hk
  have hval : ∀ g, (∀ v, g ≠ .matchedRule v) → fs.get? g = fs'.get? g :=
    fun g hg => h g fun v hv => absurd hv (hg v)
  have hself : fs.containsKey f = fs'.containsKey f := by
    rw [IndexMap.containsKey_eq_isSome, IndexMap.containsKey_eq_isSome, h f fun _ _ => rfl]
  unfold leafBoolean
  split
  · rw [hstr]
  · rw [hstr]
  · exact congrArg Except.ok (any_values_congr hval fun k hk => by
      cases k <;> first | exact Bool.noConfusion hk | exact ⟨rfl, fun _ hv => nomatch hv⟩)
  · exact congrArg Except.ok (any_values_congr hval fun k hk => by
      cases k <;> first | exact Bool.noConfusion hk | exact ⟨rfl, fun _ hv => nomatch hv⟩)
  · rfl
  · exact congrArg Except.ok hself

theorem leafHolds_congr {fs fs' : FeatureSet} {f : Feature}
    (h : ∀ g, (∀ v, g = .matchedRule v → f = g) → fs.get? g = fs'.get? g) :
    leafHolds fs f = leafHolds fs' f := by
  rw [leafHolds, leafHolds, leafBoolean_congr h]

/-- The truth of a body depends on the match values it observes, and on every other feature. -/
theorem reads_reading_congr {fs fs' : FeatureSet} {n : Node}
    (h : ∀ f, (∀ v, f = .matchedRule v → v ∈ n.observed) → fs.get? f = fs'.get? f) :
    n.reads fs.reading = n.reads fs'.reading := by
  refine Node.reads_congr fun m hm => ?_
  have hobs : ∀ v, m.stmt.observed = some v → v ∈ n.observed := fun v hv =>
    List.mem_filterMap.mpr ⟨m, hm, hv⟩
  unfold Reading.AgreeAt
  split
  · next f min max hs =>
    rw [hs] at hobs
    have hget : fs.get? f = fs'.get? f := h f (by rintro v rfl; exact hobs v rfl)
    simp only [FeatureSet.reading, locationCount, hget]
  · rfl
  · next f hs =>
    rw [hs] at hobs
    refine leafHolds_congr fun g hg => h g ?_
    rintro v rfl
    exact hobs v (by rw [hg v rfl]; rfl)
  · rfl
  · trivial
  · trivial
  · trivial

end

end CapaX
