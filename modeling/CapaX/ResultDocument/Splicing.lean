import CapaX.Control.Except
import CapaX.Graphs.Recursion
import CapaX.ResultDocument

/-
  How far the recursion of `buildMatch` goes. From an evidence tree it calls itself on the children
  and on what a successful match leaf splices in (`calls`); a call is sound when its node can be
  rendered and its leaf finds what it has to (`Sound`). `buildMatch_succeeds_iff` and
  `buildResultDocument_succeeds_iff` say when a depth is enough.
-/

namespace CapaX

open Collections Control Graphs

namespace ResultDocument

/-- The value of a match leaf that succeeded. -/
def matchLeaf (m : MatchResult) : Option String :=
  match m.success, m.node with
  | true, .leaf (.matchedRule name) => some name
  | _, _ => none

/-- A node that has a rendered form. -/
def Renders (node : MatchedNode) : Prop :=
  ∀ kind name, node ≠ .leaf (.com kind name) ∧ ∀ min max, node ≠ .range (.com kind name) min max

section

variable (set : MatchingRuleSet) (capabilities : MatchResults)

/-- The evidence a match leaf splices in. -/
def spliced (m : MatchResult) : List MatchResult :=
  match matchLeaf m with
  | none => []
  | some name =>
    match set.get name with
    | some _ => m.locations.toList.filterMap (matchAt (ruleMatchIndex capabilities name))
    | none => ((set.byNamespacePrefix.get? name).getD []).flatMap fun ruleName =>
        namespaceMatchesAt capabilities ruleName m.locations.toList

def calls (m : MatchResult) : List MatchResult := m.children ++ spliced set capabilities m

/-- The rule of the value has a match at each of the locations; at a call it may have none. -/
def FindsRule (name : String) (locations : OrdSet Address) : Prop :=
  ∀ location ∈ locations, Succeeds (ruleMatchAt capabilities name location)

/-- What a leaf that names a rule has to find. -/
def Resolves (name : String) (locations : OrdSet Address) : Prop :=
  ∀ rule, set.get name = some rule →
    (rule.isSubscopeRule = true → (rule.scopes.static_.or rule.scopes.dynamic).isSome = true) ∧
      FindsRule capabilities name locations

structure Sound (m : MatchResult) : Prop where
  renders : Renders m.node
  resolves : ∀ name, matchLeaf m = some name → Resolves set capabilities name m.locations

abbrev Calls (a b : MatchResult) : Prop := b ∈ calls set capabilities a

end

section

variable {set : MatchingRuleSet} {capabilities : MatchResults}

theorem fromEngine_succeeds {feature : Feature} {d : Option String} :
    Succeeds (RdFeature.fromEngine feature d) ↔ ∀ kind name, feature ≠ .com kind name := by
  cases feature with
  | com kind name => exact iff_of_false (not_succeeds_error _) fun h => h kind name rfl
  | string v => cases v <;> exact iff_of_true ⟨_, rfl⟩ fun _ _ h => (nomatch h)
  | _ => exact iff_of_true ⟨_, rfl⟩ fun _ _ h => (nomatch h)

theorem RenderedFeature.of_eq_ok {feature : Feature} {d : Option String} {f : RenderedFeature} :
    RenderedFeature.of feature d = .ok f ↔
      Succeeds (RdFeature.fromEngine feature d) ∧ f = ⟨feature, d⟩ := by
  refine bind_eq_ok.trans ⟨?_, ?_⟩
  · intro ⟨w, hw, h⟩
    exact ⟨⟨w, hw⟩, (Except.ok.inj h).symm⟩
  · intro ⟨⟨w, hw⟩, h⟩
    exact ⟨w, hw, congrArg Except.ok h.symm⟩

theorem RenderedFeature.of_succeeds {feature : Feature} {d : Option String} :
    Succeeds (RenderedFeature.of feature d) ↔ ∀ kind name, feature ≠ .com kind name :=
  (succeeds_bind_left fun _ => ⟨_, rfl⟩).trans fromEngine_succeeds

theorem nodeFromMatched_succeeds {node : MatchedNode} {d : Option String} :
    Succeeds (nodeFromMatched node d) ↔ Renders node := by
  cases node with
  | leaf feature =>
    have hbind : Succeeds (nodeFromMatched (.leaf feature) d) ↔
        Succeeds (RenderedFeature.of feature d) :=
      (succeeds_bind_left fun f => ⟨_, rfl⟩).trans succeeds_mapError
    rw [hbind, RenderedFeature.of_succeeds]
    simp [Renders]
  | range feature min max =>
    have hbind : Succeeds (nodeFromMatched (.range feature min max) d) ↔
        Succeeds (RenderedFeature.of feature none) :=
      (succeeds_bind_left fun f => ⟨_, rfl⟩).trans succeeds_mapError
    rw [hbind, RenderedFeature.of_succeeds]
    simp [Renders]
  | some count =>
    refine iff_of_true ?_ (by simp [Renders])
    by_cases hc : count = 0
    · simp [nodeFromMatched, hc]
    · simp [nodeFromMatched, hc]
  | and => exact iff_of_true ⟨_, rfl⟩ (by simp [Renders])
  | or => exact iff_of_true ⟨_, rfl⟩ (by simp [Renders])
  | not => exact iff_of_true ⟨_, rfl⟩ (by simp [Renders])

/-- The rendered node of a match leaf has the value of the leaf. -/
theorem matchName_eq {node : MatchedNode} {d : Option String} {out : Node}
    (h : nodeFromMatched node d = .ok out) {name : String} :
    out.matchName = some name ↔ node = .leaf (.matchedRule name) := by
  cases node with
  | leaf feature =>
    obtain ⟨f, hf, hout⟩ := bind_eq_ok.mp h
    obtain rfl := Except.ok.inj hout
    obtain ⟨-, rfl⟩ := RenderedFeature.of_eq_ok.mp (mapError_eq_ok.mp hf)
    cases feature <;> simp [Node.matchName]
  | range feature min max =>
    obtain ⟨f, _, hout⟩ := bind_eq_ok.mp h
    obtain rfl := Except.ok.inj hout
    simp [Node.matchName]
  | some count =>
    unfold nodeFromMatched at h
    dsimp only at h
    split at h
    · obtain rfl := Except.ok.inj h
      simp [Node.matchName]
    · obtain rfl := Except.ok.inj h
      simp [Node.matchName]
  | _ =>
    obtain rfl := Except.ok.inj h
    simp [Node.matchName]

theorem ruleNode_succeeds {rule : Rule} {name : String} {node : Node} :
    Succeeds (ruleNode rule name node) ↔ (rule.isSubscopeRule = true →
      (rule.scopes.static_.or rule.scopes.dynamic).isSome = true) := by
  unfold ruleNode
  split
  · next hsub =>
    cases rule.scopes.static_.or rule.scopes.dynamic with
    | none => exact iff_of_false (not_succeeds_error _) fun h => Bool.false_ne_true (h hsub)
    | some scope => exact iff_of_true ⟨_, rfl⟩ fun _ => rfl
  · next hsub => exact iff_of_true ⟨_, rfl⟩ fun h => absurd h hsub

theorem spliceAt_succeeds {build : MatchResult → Except BuildError Match} {name : String}
    {location : Address} : Succeeds (spliceAt capabilities build name location) ↔
      Succeeds (ruleMatchAt capabilities name location) ∧
        ∀ b, matchAt (ruleMatchIndex capabilities name) location = some b → Succeeds (build b) := by
  refine (succeeds_bind_const fun o ho => ?_).trans (and_congr_left' succeeds_mapError)
  have ho := mapError_eq_ok.mp ho
  unfold ruleMatchAt at ho
  cases hmatch : matchAt (ruleMatchIndex capabilities name) location with
  | some b =>
    rw [hmatch] at ho
    obtain rfl := Except.ok.inj ho
    refine (succeeds_bind_left fun out => ⟨_, rfl⟩).trans ?_
    simp
  | none =>
    have hnone : o = none := by
      rw [hmatch] at ho
      cases location with
      | call ppid pid tid id => exact (Except.ok.inj ho).symm
      | _ => cases ho
    subst hnone
    exact iff_of_true ⟨_, rfl⟩ fun b hb => (nomatch hb)

/-- A splice succeeds when the leaf finds what it has to and what it finds can be built. -/
theorem splice_succeeds {build : MatchResult → Except BuildError Match} {m : MatchResult}
    {name : String} (hm : matchLeaf m = some name) {node : Node} :
    Succeeds (splice set capabilities build name node m.locations.toList) ↔
      Resolves set capabilities name m.locations ∧
        ∀ b ∈ spliced set capabilities m, Succeeds (build b) := by
  unfold splice spliced Resolves
  rw [hm]
  dsimp only
  cases hget : set.get name with
  | some rule =>
    dsimp only
    refine (succeeds_bind_const fun node' _ => succeeds_bind_left fun out => ⟨_, rfl⟩).trans ?_
    rw [succeeds_mapError, ruleNode_succeeds, succeeds_mapM]
    simp only [spliceAt_succeeds, Option.some.injEq, forall_eq', FindsRule, OrdSet.mem_def,
      List.mem_filterMap, forall_exists_index, and_imp, and_assoc]
    refine and_congr_right fun _ => ⟨fun h => ⟨fun l hl => (h l hl).1, fun b l hl hb =>
      (h l hl).2 b hb⟩, fun h l hl => ⟨h.1 l hl, fun b hb => h.2 b l hl hb⟩⟩
  | none =>
    dsimp only
    refine (succeeds_bind_left fun out => ⟨_, rfl⟩).trans ?_
    simp only [succeeds_mapM, List.mem_flatMap, forall_exists_index, and_imp]
    constructor
    · exact fun h => ⟨fun _ hrule => (nomatch hrule), fun b r hr hb => h r hr b hb⟩
    · exact fun h r hr b hb => h.2 b r hr hb

theorem matchLeaf_eq_some {m : MatchResult} {name : String} :
    matchLeaf m = some name ↔ m.success = true ∧ m.node = .leaf (.matchedRule name) := by
  unfold matchLeaf
  split
  · next v hs hn => simp [hs, hn]
  · next hnot =>
    refine iff_of_false (fun h => (nomatch h)) fun ⟨hs, hn⟩ => ?_
    exact hnot name hs hn

theorem spliced_of_none {m : MatchResult} (h : matchLeaf m = none) :
    spliced set capabilities m = [] := by
  unfold spliced
  rw [h]

/-- The last step succeeds when the splice of a successful match leaf does. -/
theorem finishMatch_succeeds {build : MatchResult → Except BuildError Match} {m : MatchResult}
    {node : Node} (hnode : ∀ name, node.matchName = some name ↔ m.node = .leaf (.matchedRule name))
    {children : List Match} :
    Succeeds (finishMatch set capabilities build m node children) ↔
      (∀ name, matchLeaf m = some name → Resolves set capabilities name m.locations) ∧
        ∀ b ∈ spliced set capabilities m, Succeeds (build b) := by
  have hleaf : ∀ name, matchLeaf m = some name ↔ m.success = true ∧ node.matchName = some name :=
    fun name => by rw [matchLeaf_eq_some, hnode]
  unfold finishMatch
  dsimp only
  split
  · next name hs hn =>
    have hm : matchLeaf m = some name := (hleaf name).mpr ⟨hs, hn⟩
    refine (succeeds_bind_left fun out => ⟨_, rfl⟩).trans ((splice_succeeds hm).trans ?_)
    simp only [hm, Option.some.injEq, forall_eq']
  · next hnot =>
    have hnone : matchLeaf m = none := by
      cases hm : matchLeaf m with
      | none => rfl
      | some name => exact absurd ((hleaf name).mp hm).2 (hnot name ((hleaf name).mp hm).1)
    refine iff_of_true (succeeds_ok _) ⟨fun name h => ?_, fun b hb => ?_⟩
    · rw [hnone] at h
      cases h
    · rw [spliced_of_none hnone] at hb
      exact absurd hb List.not_mem_nil

/-- A depth is enough for `buildMatch` exactly when the recursion stays within it and every call
    is sound. -/
theorem buildMatch_succeeds {depth : Nat} {m : MatchResult} :
    Succeeds (buildMatch set capabilities depth m) ↔
      Completes (Calls set capabilities) (Sound set capabilities) depth m := by
  induction depth generalizing m with
  | zero => exact iff_of_false (not_succeeds_error _) id
  | succ depth ih =>
    have hnext : ∀ b, Succeeds (buildMatch set capabilities depth b) ↔
        Completes (Calls set capabilities) (Sound set capabilities) depth b := fun b => ih
    have hname : ∀ node, (nodeFromMatched m.node m.description).mapError BuildError.failed =
        .ok node → ∀ name, node.matchName = some name ↔ m.node = .leaf (.matchedRule name) :=
      fun node hnode name => matchName_eq (mapError_eq_ok.mp hnode)
    unfold buildMatch
    refine (succeeds_bind_const fun node hnode => succeeds_bind_const fun children _ =>
      finishMatch_succeeds (hname node hnode)).trans ?_
    rw [succeeds_mapError, nodeFromMatched_succeeds, succeeds_mapM]
    simp only [hnext]
    constructor
    · intro ⟨hrenders, hchildren, hresolves, hspliced⟩
      refine ⟨⟨hrenders, hresolves⟩, fun b hb => ?_⟩
      rcases List.mem_append.mp hb with hb | hb
      · exact hchildren b hb
      · exact hspliced b hb
    · intro ⟨⟨hrenders, hresolves⟩, hcalls⟩
      exact ⟨hrenders, fun b hb => hcalls b (List.mem_append_left _ hb), hresolves,
        fun b hb => hcalls b (List.mem_append_right _ hb)⟩

/-- The document is built when the evidence of every rule that is no subscope rule is. -/
theorem buildResultDocument_succeeds {order : IterOrder} {depth : Nat} :
    Succeeds (buildResultDocument set capabilities order depth) ↔
      ∀ name res rule, capabilities.get? name = some res → set.get name = some rule →
        rule.isSubscopeRule = false → ∀ r ∈ res,
          Completes (Calls set capabilities) (Sound set capabilities) depth r.2 := by
  have hturn : ∀ e ∈ (order.reorder capabilities).entries, ∀ rules,
      Succeeds (renderRule set capabilities depth rules e) ↔ ∀ rule, set.get e.1 = some rule →
        rule.isSubscopeRule = false → ∀ r ∈ e.2,
          Completes (Calls set capabilities) (Sound set capabilities) depth r.2 := by
    intro e _ rules
    unfold renderRule
    cases hget : set.get e.1 with
    | none => simp
    | some rule =>
      dsimp only
      by_cases hsub : rule.isSubscopeRule = true
      · simp [hsub]
      · rw [if_neg hsub]
        refine (succeeds_bind_left fun out => ⟨_, rfl⟩).trans (succeeds_mapM.trans ?_)
        simp only [Option.some.injEq, forall_eq', Bool.eq_false_iff.mpr hsub, forall_const]
        refine forall_congr' fun r => imp_congr_right fun _ => ?_
        exact (succeeds_bind_left fun out => ⟨_, rfl⟩).trans buildMatch_succeeds
  refine (succeeds_foldlM hturn).trans ⟨?_, ?_⟩
  · exact fun h name res rule hres => h (name, res) ((order.mem_reorder _ _).mpr hres) rule
  · exact fun h e he rule => h e.1 e.2 rule ((order.mem_reorder _ _).mp he)

end

end ResultDocument

end CapaX
