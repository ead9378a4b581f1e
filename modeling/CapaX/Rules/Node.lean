import CapaX.Features
import CapaX.Rules.Scope

/-
  Rule bodies (`rules/mod.rs`): a node is a statement with an optional description, and a
  statement is a connective over nodes, a count, a subscope or a feature leaf. `Node.induct` is
  the induction over nodes with one case for each statement, and `Node.induct_children` the same
  with a single case. `Node.Everywhere p` says `p` of every statement of a body.
-/

namespace CapaX

/-- A statement over nodes of type `ν`. -/
inductive Statement (ν : Type) where
  | and (children : List ν)
  | or (children : List ν)
  | not (child : ν)
  | some (count : UInt32) (children : List ν)
  | range (feature : Feature) (min : UInt32) (max : Option UInt32)
  | subscope (scope : Scope) (body : ν)
  | leaf (feature : Feature)

inductive Node where
  | mk (stmt : Statement Node) (description : Option String)

namespace Node

def stmt : Node → Statement Node
  | ⟨s, _⟩ => s

def description : Node → Option String
  | ⟨_, d⟩ => d

@[elab_as_elim]
theorem induct {P : Node → Prop}
    (and : ∀ cs d, (∀ c ∈ cs, P c) → P ⟨.and cs, d⟩)
    (or : ∀ cs d, (∀ c ∈ cs, P c) → P ⟨.or cs, d⟩)
    (not : ∀ c d, P c → P ⟨.not c, d⟩)
    (some : ∀ n cs d, (∀ c ∈ cs, P c) → P ⟨.some n cs, d⟩)
    (range : ∀ f min max d, P ⟨.range f min max, d⟩)
    (subscope : ∀ s b d, P b → P ⟨.subscope s b, d⟩)
    (leaf : ∀ f d, P ⟨.leaf f, d⟩) (n : Node) : P n :=
  -- the middle motive speaks of a statement under every description
  @Node.rec P (fun s => ∀ d, P ⟨s, d⟩) (fun cs => ∀ c ∈ cs, P c)
    (fun _ d ih => ih d)
    (fun cs ih d => and cs d ih) (fun cs ih d => or cs d ih) (fun c ih d => not c d ih)
    (fun n cs ih d => some n cs d ih) range (fun s b ih d => subscope s b d ih) leaf
    (fun _ h => absurd h List.not_mem_nil)
    (fun _ _ ihc ihcs _ h => (List.mem_cons.mp h).elim (fun e => e ▸ ihc) (ihcs _)) n

/-! ## Subnodes -/

mutual

/-- A node and every node below it, the bodies of subscopes included. -/
def subnodes : Node → List Node
  | ⟨.and cs, d⟩ => ⟨.and cs, d⟩ :: subnodesAll cs
  | ⟨.or cs, d⟩ => ⟨.or cs, d⟩ :: subnodesAll cs
  | ⟨.not c, d⟩ => ⟨.not c, d⟩ :: subnodes c
  | ⟨.some n cs, d⟩ => ⟨.some n cs, d⟩ :: subnodesAll cs
  | ⟨.range f min max, d⟩ => [⟨.range f min max, d⟩]
  | ⟨.subscope s b, d⟩ => ⟨.subscope s b, d⟩ :: subnodes b
  | ⟨.leaf f, d⟩ => [⟨.leaf f, d⟩]

def subnodesAll : List Node → List Node
  | [] => []
  | c :: cs => subnodes c ++ subnodesAll cs

end

theorem subnodesAll_eq (cs : List Node) : subnodesAll cs = cs.flatMap subnodes := by
  induction cs with
  | nil => rfl
  | cons c cs ih => rw [subnodesAll, ih, List.flatMap_cons]

end Node

/-- The nodes directly below a statement. -/
def Statement.children : Statement Node → List Node
  | .and cs | .or cs | .some _ cs => cs
  | .not c | .subscope _ c => [c]
  | .range .. | .leaf _ => []

namespace Node

theorem subnodes_eq (n : Node) : n.subnodes = n :: n.stmt.children.flatMap subnodes := by
  obtain ⟨s, d⟩ := n
  cases s <;> simp [subnodes, subnodesAll_eq, stmt, Statement.children]

/-- Induction with one case: what holds of the children holds of the node. -/
theorem induct_children {P : Node → Prop} (h : ∀ n, (∀ c ∈ n.stmt.children, P c) → P n)
    (n : Node) : P n := by
  induction n using induct with
  | and cs d ih => exact h _ ih
  | or cs d ih => exact h _ ih
  | not c d ih => exact h _ fun c' hc => List.mem_singleton.mp hc ▸ ih
  | some n cs d ih => exact h _ ih
  | range f min max d => exact h _ fun _ hc => absurd hc List.not_mem_nil
  | subscope s b d ih => exact h _ fun c' hc => List.mem_singleton.mp hc ▸ ih
  | leaf f d => exact h _ fun _ hc => absurd hc List.not_mem_nil

/-- A property of statements that holds at a node and everywhere below it. -/
def Everywhere (p : Statement Node → Prop) (n : Node) : Prop := ∀ m ∈ n.subnodes, p m.stmt

theorem everywhere_iff {p : Statement Node → Prop} {n : Node} :
    n.Everywhere p ↔ p n.stmt ∧ ∀ c ∈ n.stmt.children, c.Everywhere p := by
  unfold Everywhere
  rw [subnodes_eq n]
  constructor
  · intro h
    refine ⟨h n List.mem_cons_self, fun c hc m hm => h m (List.mem_cons_of_mem _ ?_)⟩
    exact List.mem_flatMap.mpr ⟨c, hc, hm⟩
  · rintro ⟨h, hcs⟩ m hm
    rcases List.mem_cons.mp hm with rfl | hm
    · exact h
    · obtain ⟨c, hc, hm⟩ := List.mem_flatMap.mp hm
      exact hcs c hc m hm

instance (p : Statement Node → Prop) [DecidablePred p] (n : Node) : Decidable (n.Everywhere p) :=
  inferInstanceAs (Decidable (∀ m ∈ n.subnodes, p m.stmt))

end Node

def Statement.isSubscope : Statement Node → Bool
  | .subscope _ _ => true
  | _ => false

/-- The number of subscopes in a body. -/
def Node.subscopeCount (n : Node) : Nat := n.subnodes.countP fun m => m.stmt.isSubscope

/-- The value of a `match:` leaf or of a counted match. -/
def Statement.observed : Statement Node → Option String
  | .leaf (.matchedRule v) | .range (.matchedRule v) _ _ => .some v
  | _ => none

namespace Node

/-- The match values a body looks at. -/
def observed (n : Node) : List String := n.subnodes.filterMap fun m => m.stmt.observed

theorem mem_observed {n : Node} {v : String} :
    v ∈ n.observed ↔ n.stmt.observed = some v ∨ ∃ c ∈ n.stmt.children, v ∈ c.observed := by
  unfold observed
  rw [subnodes_eq n]
  simp only [List.mem_filterMap, List.mem_cons, List.mem_flatMap]
  constructor
  · rintro ⟨m, rfl | ⟨c, hc, hm⟩, hv⟩
    · exact Or.inl hv
    · exact Or.inr ⟨c, hc, m, hm, hv⟩
  · rintro (hv | ⟨c, hc, m, hm, hv⟩)
    · exact ⟨n, Or.inl rfl, hv⟩
    · exact ⟨m, Or.inr ⟨c, hc, hm⟩, hv⟩

section

variable {cs : List Node} {c : Node} {d : Option String} {v : String}

@[simp] theorem mem_observed_and : v ∈ observed ⟨.and cs, d⟩ ↔ ∃ c ∈ cs, v ∈ c.observed := by
  rw [mem_observed]; simp [stmt, Statement.observed, Statement.children]

@[simp] theorem mem_observed_or : v ∈ observed ⟨.or cs, d⟩ ↔ ∃ c ∈ cs, v ∈ c.observed := by
  rw [mem_observed]; simp [stmt, Statement.observed, Statement.children]

@[simp] theorem mem_observed_some {n : UInt32} :
    v ∈ observed ⟨.some n cs, d⟩ ↔ ∃ c ∈ cs, v ∈ c.observed := by
  rw [mem_observed]; simp [stmt, Statement.observed, Statement.children]

@[simp] theorem mem_observed_not : v ∈ observed ⟨.not c, d⟩ ↔ v ∈ c.observed := by
  rw [mem_observed]; simp [stmt, Statement.observed, Statement.children]

@[simp] theorem mem_observed_subscope {s : Scope} :
    v ∈ observed ⟨.subscope s c, d⟩ ↔ v ∈ c.observed := by
  rw [mem_observed]; simp [stmt, Statement.observed, Statement.children]

@[simp] theorem mem_observed_range {f : Feature} {min : UInt32} {max : Option UInt32} :
    v ∈ observed ⟨.range f min max, d⟩ ↔ f = .matchedRule v := by
  rw [mem_observed]; cases f <;> simp [stmt, Statement.observed, Statement.children]

@[simp] theorem mem_observed_leaf {f : Feature} :
    v ∈ observed ⟨.leaf f, d⟩ ↔ f = .matchedRule v := by
  rw [mem_observed]; cases f <;> simp [stmt, Statement.observed, Statement.children]

end

end Node

/-- A statement as a node without a description. -/
def Statement.node (s : Statement Node) : Node := ⟨s, none⟩

end CapaX
