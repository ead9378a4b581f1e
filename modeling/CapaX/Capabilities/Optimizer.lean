import CapaX.Capabilities.Extraction

/-
  The optimizer (`optimize_node`) as a rewriting of its own. It sorts the children of every
  connective by what they cost and touches nothing else (`Statement.Rearranges`), so
  `evaluateBoolean` answers alike before and after. What a body costs does not depend on the order
  of its children (`nodeCost_optimizeNode`): an optimized body is sorted already, and optimizing it
  again changes nothing.
-/

namespace CapaX

open Collections Node

/-! ## Sorting -/

/-- The children are sorted by their own cost, and then optimized one by one. -/
theorem sortByCost_eq (cs : List Node) : sortByCost (optimizeChildren cs) =
    (cs.insertionSort fun a b => nodeCost a ≤ nodeCost b).map optimizeNode := by
  have hsort := List.map_insertionSort (fun a b => nodeCost a ≤ nodeCost b)
    (fun a b : UInt32 × Node => a.1 ≤ b.1) (fun c => (nodeCost c, optimizeNode c)) cs
    fun _ _ _ _ => Iff.rfl
  rw [sortByCost, optimizeChildren_eq, ← hsort, List.map_map]
  rfl

/-! ## Costs -/

theorem costSum_perm {cs cs' : List Node} (h : cs.Perm cs') : costSum cs = costSum cs' := by
  induction h with
  | nil => rfl
  | cons c _ ih => rw [costSum, costSum, ih]
  | swap c c' cs =>
    rw [costSum, costSum, costSum, costSum, ← UInt32.add_assoc, ← UInt32.add_assoc,
      UInt32.add_comm (nodeCost c)]
  | trans _ _ ih ih' => rw [ih, ih']

theorem costSum_map {f : Node → Node} {cs : List Node}
    (h : ∀ c ∈ cs, nodeCost (f c) = nodeCost c) : costSum (cs.map f) = costSum cs := by
  induction cs with
  | nil => rfl
  | cons c cs ih =>
    rw [List.map_cons, costSum, costSum, h c List.mem_cons_self,
      ih fun x hx => h x (List.mem_cons_of_mem _ hx)]

/-- The optimizer leaves the cost of a body as it is. -/
theorem nodeCost_optimizeNode (n : Node) : nodeCost (optimizeNode n) = nodeCost n := by
  have hsum : ∀ cs : List Node, (∀ c ∈ cs, nodeCost (optimizeNode c) = nodeCost c) →
      costSum (sortByCost (optimizeChildren cs)) = costSum cs := fun cs ih =>
    (costSum_perm (sortByCost_perm cs)).trans (costSum_map ih)
  induction n using Node.induct with
  | and cs d ih => rw [optimizeNode, nodeCost, nodeCost, hsum cs ih]
  | or cs d ih => rw [optimizeNode, nodeCost, nodeCost, hsum cs ih]
  | some k cs d ih => rw [optimizeNode, nodeCost, nodeCost, hsum cs ih]
  | not c d ih => rw [optimizeNode, nodeCost, nodeCost, ih]
  | subscope s b d ih => rw [optimizeNode, nodeCost, nodeCost, ih]
  | range f min max d => rw [optimizeNode]
  | leaf f d => rw [optimizeNode]

/-- What comes out of the sorting is sorted. -/
theorem pairwise_sortByCost (cs : List Node) :
    (sortByCost (optimizeChildren cs)).Pairwise fun a b => nodeCost a ≤ nodeCost b := by
  have : Std.Total fun a b : Node => nodeCost a ≤ nodeCost b := ⟨fun _ _ => UInt32.le_total _ _⟩
  have : IsTrans Node fun a b => nodeCost a ≤ nodeCost b := ⟨fun _ _ _ => UInt32.le_trans⟩
  rw [sortByCost_eq, List.pairwise_map]
  simp only [nodeCost_optimizeNode]
  exact List.pairwise_insertionSort _ _

/-! ## Idempotence -/

theorem optimizeNode_optimizeNode (n : Node) : optimizeNode (optimizeNode n) = optimizeNode n := by
  have hsort : ∀ cs : List Node, (∀ c ∈ cs, optimizeNode (optimizeNode c) = optimizeNode c) →
      sortByCost (optimizeChildren (sortByCost (optimizeChildren cs))) =
        sortByCost (optimizeChildren cs) := by
    intro cs ih
    rw [sortByCost_eq, (pairwise_sortByCost cs).insertionSort_eq]
    have hfix : ∀ c' ∈ sortByCost (optimizeChildren cs), optimizeNode c' = id c' := by
      intro c' hc'
      obtain ⟨c, hc, rfl⟩ := mem_sortByCost.mp hc'
      exact ih c hc
    rw [List.map_congr_left hfix, List.map_id]
  induction n using Node.induct with
  | and cs d ih => rw [optimizeNode, optimizeNode, hsort cs ih]
  | or cs d ih => rw [optimizeNode, optimizeNode, hsort cs ih]
  | some k cs d ih => rw [optimizeNode, optimizeNode, hsort cs ih]
  | not c d ih => rw [optimizeNode, optimizeNode, ih]
  | subscope s b d ih => rw [optimizeNode, optimizeNode, ih]
  | range f min max d => rw [optimizeNode, optimizeNode]
  | leaf f d => rw [optimizeNode, optimizeNode]

/-! ## What is rearranged -/

/-- The same statement with the parts `f` makes of its own, those of a connective in any order. -/
def Statement.Rearranges (f : Node → Node) : Statement Node → Statement Node → Prop
  | .and cs, .and cs' => cs'.Perm (cs.map f)
  | .or cs, .or cs' => cs'.Perm (cs.map f)
  | .some count cs, .some count' cs' => count' = count ∧ cs'.Perm (cs.map f)
  | .not c, .not c' => c' = f c
  | .subscope scope body, .subscope scope' body' => scope' = scope ∧ body' = f body
  | .range feature min max, .range feature' min' max' =>
    feature' = feature ∧ min' = min ∧ max' = max
  | .leaf feature, .leaf feature' => feature' = feature
  | _, _ => False

theorem optimizeNode_rearranges (n : Node) : (optimizeNode n).description = n.description ∧
    n.stmt.Rearranges optimizeNode (optimizeNode n).stmt := by
  obtain ⟨stmt, d⟩ := n
  cases stmt with
  | and cs => exact ⟨rfl, sortByCost_perm cs⟩
  | or cs => exact ⟨rfl, sortByCost_perm cs⟩
  | some k cs => exact ⟨rfl, rfl, sortByCost_perm cs⟩
  | not c => exact ⟨rfl, rfl⟩
  | subscope s b => exact ⟨rfl, rfl, rfl⟩
  | range f min max => exact ⟨rfl, rfl, rfl, rfl⟩
  | leaf f => exact ⟨rfl, rfl⟩

section

variable [RegexBackend]

omit [RegexBackend] in
theorem quorum_perm (count : UInt32) {bs bs' : List Bool} (h : bs.Perm bs') :
    quorum count bs = quorum count bs' := by
  unfold quorum
  rw [h.isEmpty_eq, h.count_eq]

/-- Short-circuiting stops elsewhere in the sorted body, with the same answer. -/
theorem evaluateBoolean_optimizeNode {fs : FeatureSet} {n : Node} (h : n.Evaluable) :
    evaluateBoolean fs (optimizeNode n) = evaluateBoolean fs n := by
  rw [evaluateBoolean_eq h, evaluateBoolean_eq (optimizeNode_evaluable h)]
  exact congrArg Except.ok (optimizeNode_reads (fun k _ _ hp => quorum_perm k hp)
    (fun _ _ => rfl) n)

/-- Two statements in the order a rule gives them, and in the order of what they cost. -/
def scanFirst : Node :=
  ⟨.and [⟨.leaf (.string (.substring "http")), none⟩, ⟨.leaf (.os "linux"), none⟩], none⟩

@[inherit_doc scanFirst] def platformFirst : Node :=
  ⟨.and [⟨.leaf (.os "linux"), none⟩, ⟨.leaf (.string (.substring "http")), none⟩], none⟩

/-- The optimizer preserves the meaning of a body, rearranges the children of each of its nodes
    and has nothing left to do on its own result. -/
theorem optimizeNode_preserves (n : Node) (h : n.Evaluable) :
    (∀ fs : FeatureSet, evaluateBoolean fs (optimizeNode n) = evaluateBoolean fs n) ∧
    (∀ m ∈ n.subnodes, (optimizeNode m).description = m.description ∧
      m.stmt.Rearranges optimizeNode (optimizeNode m).stmt) ∧
    optimizeNode (optimizeNode n) = optimizeNode n :=
  ⟨fun _ => evaluateBoolean_optimizeNode h, fun m _ => optimizeNode_rearranges m,
    optimizeNode_optimizeNode n⟩

/-- A sample on which the body holds. -/
def linuxFetch : FeatureSet :=
  FeatureSet.insert (FeatureSet.insert ∅ (.string (.plain "http://a")) (.absolute 0x2000))
    (.os "linux") .noAddress

omit [RegexBackend] in
/-- A scan of the strings costs more than a look at the platform, so the two change places. -/
theorem optimizeNode_preserves_scanFirst :
    optimizeNode scanFirst = platformFirst ∧
      @evaluateBoolean .empty linuxFetch platformFirst =
        @evaluateBoolean .empty linuxFetch scanFirst ∧
      @evaluateBoolean .empty linuxFetch scanFirst = .ok true :=
  ⟨rfl, (@optimizeNode_preserves .empty scanFirst (by decide)).1 _, by rfl⟩

end

end CapaX
