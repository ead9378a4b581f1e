import CapaX.Engine.Reading
import CapaX.Rules.Meta

/-
  The two passes over one body. The matcher decides a rule with `evaluateBoolean` and records the
  evidence `evaluate` collects, and the evidence of a recorded rule should succeed. Two kinds of
  lists keep the passes apart: an `N or more` with `N = 0` and no children, which the first pass
  reads as false and the second as true, and a list so long that its number of satisfied children
  wraps below `N` as a `u32`. `evidence_succeeds_iff` says that nothing else does.
-/

namespace CapaX

/-- The plain meaning of `N or more`. -/
def atLeast (count : UInt32) (bs : List Bool) : Bool := decide (count.toNat ≤ bs.count true)

/-- The number of satisfied children wraps below the threshold. -/
def wraps (count : UInt32) (bs : List Bool) : Bool :=
  decide (2 ^ 32 ≤ bs.count true ∧ bs.count true % 2 ^ 32 < count.toNat)

/-- `0 or more` of nothing. -/
def vacuous (count : UInt32) (bs : List Bool) : Bool := bs.isEmpty && decide (count = 0)

/-- `N or more`, where a vacuous list reads as `b` and one that wraps as the opposite. -/
def degenerateQuorum (b : Bool) (count : UInt32) (bs : List Bool) : Bool :=
  if vacuous count bs then b else if wraps count bs then !b else atLeast count bs

/-- Past the vacuous lists the degenerate reading asks two numeric questions. -/
theorem degenerateQuorum_of_not_vacuous {b : Bool} {count : UInt32} {bs : List Bool}
    (hv : vacuous count bs = false) :
    degenerateQuorum b count bs = if wraps count bs then !b else atLeast count bs := by
  rw [degenerateQuorum, hv]
  rfl

theorem atLeast_of_wraps {count : UInt32} {bs : List Bool} (h : wraps count bs = true) :
    atLeast count bs = true := by
  have hwrap := of_decide_eq_true h
  have hlt := count.toNat_lt
  exact decide_eq_true (by omega)

theorem quorum_eq (count : UInt32) (bs : List Bool) :
    quorum count bs = degenerateQuorum false count bs := by
  by_cases hv : vacuous count bs = true
  · obtain ⟨hb, _⟩ := Bool.and_eq_true_iff.mp hv
    rw [quorum, hb, degenerateQuorum, if_pos hv]
    rfl
  · have hv := Bool.eq_false_iff.mpr hv
    have hquorum : quorum count bs = atLeast count bs := by
      unfold quorum atLeast
      cases bs with
      | nil =>
        have hc : count ≠ 0 := of_decide_eq_false hv
        have hpos : count.toNat ≠ 0 := fun h => hc (UInt32.toNat_inj.mp h)
        exact (decide_eq_false (by rw [List.count_nil]; omega)).symm
      | cons b bs => rfl
    rw [hquorum, degenerateQuorum_of_not_vacuous hv]
    by_cases hw : wraps count bs = true
    · rw [if_pos hw, atLeast_of_wraps hw]
      rfl
    · rw [if_neg hw]

theorem fullQuorum_eq (count : UInt32) (bs : List Bool) :
    fullQuorum count bs = degenerateQuorum true count bs := by
  have hlt := count.toNat_lt
  have hfull : fullQuorum count bs = true ↔ count.toNat ≤ bs.count true % 2 ^ 32 := by
    rw [fullQuorum, decide_eq_true_iff, UInt32.le_iff_toNat_le, UInt32.toNat_ofNat']
  by_cases hv : vacuous count bs = true
  · obtain ⟨_, hc⟩ := Bool.and_eq_true_iff.mp hv
    have hzero : count.toNat = 0 := by rw [of_decide_eq_true hc]; rfl
    rw [degenerateQuorum, if_pos hv]
    exact hfull.mpr (by omega)
  · rw [degenerateQuorum_of_not_vacuous (Bool.eq_false_iff.mpr hv)]
    by_cases hw : wraps count bs = true
    · have hwrap := of_decide_eq_true hw
      rw [if_pos hw]
      refine Bool.eq_false_iff.mpr fun h => ?_
      have hle := hfull.mp h
      omega
    · have hwrap := of_decide_eq_false (Bool.eq_false_iff.mpr hw)
      rw [if_neg hw, Bool.eq_iff_iff, hfull, atLeast, decide_eq_true_iff]
      omega

section

variable [RegexBackend]

/-- The plain reading of a feature set, where vacuous lists read as `b` and wrapping lists as the
    opposite. -/
def FeatureSet.plainReading (fs : FeatureSet) (b : Bool) : Reading :=
  { fs.reading with some := degenerateQuorum b }

theorem FeatureSet.reading_eq (fs : FeatureSet) : fs.reading = fs.plainReading false := by
  have hsome : quorum = degenerateQuorum false := by
    funext count bs
    exact quorum_eq count bs
  unfold plainReading
  rw [← hsome]
  rfl

theorem FeatureSet.fullReading_eq (fs : FeatureSet) : fs.fullReading = fs.plainReading true := by
  have hsome : fullQuorum = degenerateQuorum true := by
    funext count bs
    exact fullQuorum_eq count bs
  unfold plainReading
  rw [← hsome]
  rfl

/-- A body that holds in the first pass has evidence that succeeds, unless its vacuous and
    wrapping lists decide it: exactly when reading the vacuous lists as true rather than false,
    and the wrapping ones as false rather than true, does not make the body false. -/
theorem evidence_succeeds_iff {fs : FeatureSet} {n : Node} (h : n.Evaluable) :
    (evaluateBoolean fs n = .ok true → ∃ r, evaluate fs false n = .ok r ∧ r.success = true) ↔
      (n.reads (fs.plainReading false) = true → n.reads (fs.plainReading true) = true) := by
  have hfull : ∃ r, evaluate fs false n = .ok r ∧ r.success = n.reads fs.fullReading :=
    evaluate_full h
  obtain ⟨r, hr, hsuccess⟩ := hfull
  have hfirst : evaluateBoolean fs n = .ok true ↔ n.reads (fs.plainReading false) = true := by
    rw [evaluateBoolean_eq h, fs.reading_eq]
    exact ⟨Except.ok.inj, congrArg _⟩
  have hsecond : (∃ r, evaluate fs false n = .ok r ∧ r.success = true) ↔
      n.reads (fs.plainReading true) = true := by
    rw [← fs.fullReading_eq, ← hsuccess, hr]
    constructor
    · intro ⟨r', hr', hs⟩
      rw [Except.ok.inj hr']
      exact hs
    · exact fun hs => ⟨r, rfl, hs⟩
  rw [hfirst, hsecond]

/-- A body without a vacuous list and with lists shorter than `2 ^ 32` only. -/
def Node.Regular (n : Node) : Prop := n.Everywhere fun s =>
  ∀ count cs, s = .some count cs → (cs ≠ [] ∨ count ≠ 0) ∧ cs.length < 2 ^ 32

omit [RegexBackend] in
theorem degenerateQuorum_of_regular {count : UInt32} {bs : List Bool}
    (hne : bs ≠ [] ∨ count ≠ 0) (hlen : bs.length < 2 ^ 32) (b : Bool) :
    degenerateQuorum b count bs = atLeast count bs := by
  have hv : vacuous count bs = false := by
    unfold vacuous
    rcases hne with hne | hne
    · rw [List.isEmpty_eq_false_iff.mpr hne]
      rfl
    · rw [decide_eq_false hne, Bool.and_false]
  have hw : wraps count bs = false := decide_eq_false fun h => by
    have hle : bs.count true ≤ bs.length := List.count_le_length
    omega
  rw [degenerateQuorum_of_not_vacuous hv, hw]
  rfl

/-- On a regular body the two passes agree, so what is recorded has succeeded. -/
theorem evaluate_success_of_regular {fs : FeatureSet} {n : Node} (h : n.Evaluable)
    (hr : n.Regular) :
    ∃ r, evaluate fs false n = .ok r ∧ evaluateBoolean fs n = .ok r.success := by
  have hreads : n.reads fs.reading = n.reads fs.fullReading := by
    rw [fs.reading_eq, fs.fullReading_eq]
    clear h
    induction n using Node.induct with
    | and cs d ih =>
      rw [Node.reads_and, Node.reads_and, Bool.eq_iff_iff, List.all_eq_true, List.all_eq_true]
      exact forall₂_congr fun c hc => by rw [ih c hc ((Node.everywhere_iff.mp hr).2 c hc)]
    | or cs d ih =>
      rw [Node.reads_or, Node.reads_or, Bool.eq_iff_iff, List.any_eq_true, List.any_eq_true]
      exact exists_congr fun c => and_congr_right fun hc => by
        rw [ih c hc ((Node.everywhere_iff.mp hr).2 c hc)]
    | not c d ih =>
      rw [Node.reads_not, Node.reads_not,
        ih ((Node.everywhere_iff.mp hr).2 c (List.mem_singleton.mpr rfl))]
    | some count cs d ih =>
      obtain ⟨hreg, hcs⟩ := Node.everywhere_iff.mp hr
      obtain ⟨hne, hlen⟩ := hreg count cs rfl
      have hne' : cs.map (Node.reads (fs.plainReading true)) ≠ [] ∨ count ≠ 0 :=
        hne.imp (fun h => by rwa [Ne, List.map_eq_nil_iff]) id
      have hlen' : (cs.map (Node.reads (fs.plainReading true))).length < 2 ^ 32 := by
        rwa [List.length_map]
      rw [Node.reads_some, Node.reads_some, List.map_congr_left fun c hc => ih c hc (hcs c hc)]
      exact (degenerateQuorum_of_regular hne' hlen' false).trans
        (degenerateQuorum_of_regular hne' hlen' true).symm
    | range f min max d => rw [Node.reads_range, Node.reads_range]; rfl
    | subscope s b d ih => rw [Node.reads_subscope, Node.reads_subscope]; rfl
    | leaf f d => rw [Node.reads_leaf, Node.reads_leaf]; rfl
  have heval : ∃ r, evaluate fs false n = .ok r ∧ r.success = n.reads fs.fullReading :=
    evaluate_full h
  obtain ⟨r, hfull, hsuccess⟩ := heval
  exact ⟨r, hfull, by rw [evaluateBoolean_eq h, hreads, hsuccess]⟩

end

/-- The body of `not: [optional: []]`. -/
def notNothing : Node := ⟨.not ⟨.some 0 [], none⟩, none⟩

/-- The parser accepts `not: [optional: []]`, the first pass finds that it holds on the empty
    feature set, and the evidence does not succeed. -/
theorem notNothing_evidence_fails :
    ((@ruleFromDocument .blank .empty "" (ruleDocument "nothing" "function" "unsupported"
        [(.string "not", .sequence [.mapping [(.string "optional", .sequence [])]])])).map
        Rule.body = .ok notNothing) ∧ notNothing.Evaluable ∧
      @evaluateBoolean .empty ∅ notNothing = .ok true ∧
      ∃ r, @evaluate .empty ∅ false notNothing = .ok r ∧ r.success = false :=
  ⟨rfl, by decide, rfl, _, rfl, rfl⟩

/-- A body whose statements hold on `fileOpened`. -/
def opensFile : Node :=
  ⟨.and [⟨.leaf (.api "CreateFile"), none⟩, ⟨.not ⟨.leaf (.api "WriteFile"), none⟩, none⟩,
    ⟨.some 1 [⟨.leaf (.os "linux"), none⟩, ⟨.leaf (.os "windows"), none⟩], none⟩], none⟩

@[inherit_doc opensFile] def fileOpened : FeatureSet :=
  FeatureSet.insert (FeatureSet.insert ∅ (.api "CreateFile") (.absolute 0x1004)) (.os "windows")
    .noAddress

/-- On the second body the condition fails; on the first one it holds, and the evidence succeeds. -/
theorem evidence_succeeds_iff_notNothing :
    (∃ r, @evaluate .empty fileOpened false opensFile = .ok r ∧ r.success = true) ∧
    ((@evaluateBoolean .empty ∅ notNothing = .ok true →
        ∃ r, @evaluate .empty ∅ false notNothing = .ok r ∧ r.success = true) ↔
      (notNothing.reads (@FeatureSet.plainReading .empty ∅ false) = true →
        notNothing.reads (@FeatureSet.plainReading .empty ∅ true) = true)) :=
  ⟨(@evidence_succeeds_iff .empty fileOpened opensFile (by decide)).mpr (fun _ => by rfl) (by rfl),
    @evidence_succeeds_iff .empty ∅ notNothing (by decide)⟩

end CapaX
