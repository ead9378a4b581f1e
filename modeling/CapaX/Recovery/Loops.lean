import CapaX.Graphs.Components
import CapaX.Recovery.Image

/-
  The `loop` characteristic of a function: whether its control-flow edges hold a cycle of at least
  two nodes. `has_loop` runs the two passes of `Graphs.Components` over the maps it builds from the
  edges.

  `hasLoop_spec`: it answers, and the answer is whether two nodes lead to each other. Edges that
  are on no cycle of two nodes do not matter, nor does the order of the edges.
-/

namespace CapaX.Recovery

open Collections Graphs Relation

/-! ## The graph of the edges -/

/-- What `has_loop` collects from the edges. -/
structure LoopGraph where
  forward : OrdMap UInt64 (List UInt64)
  backward : OrdMap UInt64 (List UInt64)
  nodes : OrdSet UInt64

namespace LoopGraph

/-- `map.entry(key).or_default().push(value)`. -/
def push (map : OrdMap UInt64 (List UInt64)) (key value : UInt64) : OrdMap UInt64 (List UInt64) :=
  map.upsert key fun old => old.getD [] ++ [value]

def add (g : LoopGraph) (edge : UInt64 × UInt64) : LoopGraph where
  forward := push g.forward edge.1 edge.2
  backward := push g.backward edge.2 edge.1
  nodes := (g.nodes.insert edge.1).insert edge.2

def ofEdges (edges : List (UInt64 × UInt64)) : LoopGraph := edges.foldl add ⟨∅, ∅, ∅⟩

def succs (g : LoopGraph) (node : UInt64) : List UInt64 := (g.forward.get? node).getD []

def preds (g : LoopGraph) (node : UInt64) : List UInt64 := (g.backward.get? node).getD []

theorem mem_push {map : OrdMap UInt64 (List UInt64)} {key value a b : UInt64} :
    b ∈ ((push map key value).get? a).getD [] ↔
      b ∈ (map.get? a).getD [] ∨ (a, b) = (key, value) := by
  rw [push, OrdMap.get?_upsert]
  by_cases ha : a = key
  · subst ha
    simp
  · simp [ha]

/-- The graph of an edge list: the maps hold the edges both ways, the nodes their ends. -/
structure Holds (g : LoopGraph) (edges : List (UInt64 × UInt64)) : Prop where
  succs : ∀ a b, b ∈ g.succs a ↔ (a, b) ∈ edges
  preds : ∀ a b, a ∈ g.preds b ↔ (a, b) ∈ edges
  nodes : ∀ e ∈ edges, e.1 ∈ g.nodes ∧ e.2 ∈ g.nodes

variable {g : LoopGraph} {edges : List (UInt64 × UInt64)}

theorem Holds.add (h : g.Holds edges) (edge : UInt64 × UInt64) :
    (g.add edge).Holds (edges ++ [edge]) where
  succs a b := by
    show b ∈ ((push g.forward edge.1 edge.2).get? a).getD [] ↔ _
    rw [mem_push, List.mem_append, List.mem_singleton]
    exact or_congr_left (h.succs a b)
  preds a b := by
    show a ∈ ((push g.backward edge.2 edge.1).get? b).getD [] ↔ _
    rw [mem_push, List.mem_append, List.mem_singleton]
    refine or_congr (h.preds a b) ?_
    rw [Prod.ext_iff, Prod.ext_iff]
    exact and_comm
  nodes e he := by
    have hmem : ∀ x ∈ g.nodes, x ∈ (g.add edge).nodes := fun x hx =>
      OrdSet.mem_insert.mpr (Or.inr (OrdSet.mem_insert.mpr (Or.inr hx)))
    rcases List.mem_append.mp he with he | he
    · obtain ⟨h1, h2⟩ := h.nodes e he
      exact ⟨hmem _ h1, hmem _ h2⟩
    · rw [List.mem_singleton.mp he]
      exact ⟨OrdSet.mem_insert.mpr (Or.inr (OrdSet.mem_insert.mpr (Or.inl rfl))),
        OrdSet.mem_insert.mpr (Or.inl rfl)⟩

theorem ofEdges_holds (edges : List (UInt64 × UInt64)) : (ofEdges edges).Holds edges := by
  induction edges using List.reverseRecOn with
  | nil =>
    refine ⟨fun a b => ?_, fun a b => ?_, nofun⟩
    · simp [ofEdges, LoopGraph.succs]
    · simp [ofEdges, LoopGraph.preds]
  | append_singleton edges edge ih =>
    rw [ofEdges, List.foldl_append]
    exact ih.add edge

/-- The fuel of the two passes: the work of both graphs. -/
def fuel (g : LoopGraph) : Nat :=
  work g.succs g.nodes.toList ∅ + work g.preds g.nodes.toList ∅ + 2

end LoopGraph

def hasLoop (edges : List (UInt64 × UInt64)) : Option Bool :=
  if edges.isEmpty then some false
  else do
    let g := LoopGraph.ofEdges edges
    let search ← finishAll g.succs g.fuel g.nodes.toList
    largeComponent g.preds g.fuel search.order.reverse ∅

/-! ## The answer -/

/-- `b` is reached from `a` through the edges. -/
abbrev Leads (edges : List (UInt64 × UInt64)) : UInt64 → UInt64 → Prop :=
  ReflTransGen fun a b => (a, b) ∈ edges

/-- Two distinct nodes lead to each other. -/
def Loops (edges : List (UInt64 × UInt64)) : Prop :=
  ∃ a b, a ≠ b ∧ Leads edges a b ∧ Leads edges b a

theorem hasLoop_answers (edges : List (UInt64 × UInt64)) :
    ∃ answer, hasLoop edges = some answer ∧ (answer = true ↔ Loops edges) := by
  unfold hasLoop
  split
  · next hempty =>
    refine ⟨false, rfl, iff_of_false Bool.false_ne_true ?_⟩
    rintro ⟨a, b, hne, hab, -⟩
    obtain ⟨c, hac, -⟩ := hab.cases_head.resolve_left hne
    rw [List.isEmpty_iff.mp hempty] at hac
    exact List.not_mem_nil hac
  · have h := LoopGraph.ofEdges_holds edges
    obtain ⟨g, hg⟩ : ∃ g, g = LoopGraph.ofEdges edges := ⟨_, rfl⟩
    rw [← hg] at h ⊢
    have hleads : Reach g.succs = Leads edges := by
      unfold Reach Leads
      congr 1
      funext a b
      exact propext (h.succs a b)
    obtain ⟨search, answer, hsearch, hlarge, hanswer⟩ := largeComponent_iff
      (fun a b => (h.preds a b).trans (h.succs a b).symm)
      (fun a b hb => h.nodes (a, b) ((h.succs a b).mp hb))
      (show work g.succs g.nodes.toList ∅ + 1 < g.fuel by unfold LoopGraph.fuel; omega)
      (show work g.preds g.nodes.toList ∅ + 1 < g.fuel by unfold LoopGraph.fuel; omega)
    rw [hleads] at hanswer
    refine ⟨answer, ?_, hanswer⟩
    dsimp only
    rw [hsearch]
    exact hlarge

/-- Self-loops lead nowhere else. -/
theorem Leads.of_proper {edges edges' : List (UInt64 × UInt64)}
    (h : ∀ a b, a ≠ b → (a, b) ∈ edges → (a, b) ∈ edges') {a b : UInt64} (hab : Leads edges a b) :
    Leads edges' a b := by
  induction hab with
  | refl => exact .refl
  | @tail b c _ hbc ih =>
    by_cases hne : b = c
    · rw [← hne]
      exact ih
    · exact ih.tail (h b c hne hbc)

/-- On the way between two nodes that lead to each other every edge is on a cycle. -/
theorem Leads.of_cyclic {edges edges' : List (UInt64 × UInt64)}
    (h : ∀ a b, a ≠ b → (a, b) ∈ edges' → Leads edges' b a → (a, b) ∈ edges) {a b : UInt64}
    (hab : Leads edges' a b) (hba : Leads edges' b a) : Leads edges a b := by
  induction hab using ReflTransGen.head_induction_on with
  | refl => exact .refl
  | @head a c hac hcb ih =>
    have hrest : Leads edges c b := ih (hba.tail hac)
    by_cases hne : a = c
    · rw [hne]
      exact hrest
    · exact hrest.head (h a c hne hac (hcb.trans hba))

/-- Edges that are on no cycle of two nodes decide nothing. -/
theorem loops_congr {edges edges' : List (UInt64 × UInt64)}
    (hkeep : ∀ a b, a ≠ b → (a, b) ∈ edges → (a, b) ∈ edges')
    (hnew : ∀ a b, a ≠ b → (a, b) ∈ edges' → Leads edges' b a → (a, b) ∈ edges) :
    Loops edges' ↔ Loops edges := by
  constructor
  · rintro ⟨a, b, hne, hab, hba⟩
    exact ⟨a, b, hne, hab.of_cyclic hnew hba, hba.of_cyclic hnew hab⟩
  · rintro ⟨a, b, hne, hab, hba⟩
    exact ⟨a, b, hne, hab.of_proper hkeep, hba.of_proper hkeep⟩

/-- `has_loop` answers whether two nodes lead to each other. Edge lists that have the same edges
    between distinct nodes, up to edges of which the end does not lead back to the start, have one
    answer: in any order, with self-loops, parallel edges, acyclic parts and lead-ins or without. -/
theorem hasLoop_spec (edges : List (UInt64 × UInt64)) :
    (∃ answer, hasLoop edges = some answer ∧ (answer = true ↔
      ∃ a b, a ≠ b ∧ Leads edges a b ∧ Leads edges b a)) ∧
    ∀ edges' : List (UInt64 × UInt64),
      (∀ a b, a ≠ b → (a, b) ∈ edges → (a, b) ∈ edges') →
      (∀ a b, a ≠ b → (a, b) ∈ edges' → Leads edges' b a → (a, b) ∈ edges) →
      hasLoop edges' = hasLoop edges := by
  refine ⟨hasLoop_answers edges, fun edges' hkeep hnew => ?_⟩
  obtain ⟨answer, hrun, h⟩ := hasLoop_answers edges
  obtain ⟨answer', hrun', h'⟩ := hasLoop_answers edges'
  rw [hrun, hrun', Bool.eq_iff_iff.mpr (h'.trans ((loops_congr hkeep hnew).trans h.symm))]

/-- A cycle behind a lead-in, with a self-loop and a parallel edge. -/
theorem hasLoop_spec_leadIn :
    hasLoop [(3, 3), (1, 2), (2, 3), (3, 2), (2, 3)] = hasLoop [(2, 3), (3, 2)] := by
  refine (hasLoop_spec [(2, 3), (3, 2)]).2 _ (fun a b _ h => ?_) fun a b hne h hback => ?_
  · have hsub : ([(2, 3), (3, 2)] : List (UInt64 × UInt64)) ⊆
        [(3, 3), (1, 2), (2, 3), (3, 2), (2, 3)] := by decide
    exact hsub h
  · have hstart : ∀ c, Leads [(3, 3), (1, 2), (2, 3), (3, 2), (2, 3)] c 1 → c = 1 := by
      intro c hc
      induction hc using ReflTransGen.head_induction_on with
      | refl => rfl
      | head hab _ ih => simp_all
    simp only [List.mem_cons, List.not_mem_nil, or_false, Prod.mk.injEq] at h ⊢
    rcases h with ⟨rfl, rfl⟩ | ⟨rfl, rfl⟩ | h | h | h
    · exact absurd rfl hne
    · exact absurd (hstart 2 hback) (by decide)
    · exact Or.inl h
    · exact Or.inr h
    · exact Or.inl h

end CapaX.Recovery
