import Mathlib.Logic.Relation
import Mathlib.Algebra.BigOperators.Group.List.Basic
import Mathlib.Algebra.GroupWithZero.Nat
import Mathlib.Order.WellFounded

/-
  Workers that take turns over one shared memory. A turn of one worker reads
  and writes the memory and its own local state, every other worker stands
  still, and nothing says who is next: a run is any sequence of turns. What
  holds of all runs is proved from what one turn does: an invariant from its
  preservation (`Pool.Run.inv`), an end of every run from a cost that each
  turn lowers (`Pool.wellFounded_step`).
-/

namespace Control

/-- A pool of workers over one shared memory. -/
structure Pool (σ ρ : Type) where
  shared : σ
  workers : List ρ

namespace Pool

variable {σ ρ : Type}

section Turns

variable (turn : σ → ρ → σ → ρ → Prop)

/-- One worker takes a turn, from a memory and a local state to the next ones. -/
inductive Step : Pool σ ρ → Pool σ ρ → Prop where
  | turn {m m' : σ} {w w' : ρ} (before after : List ρ) (h : turn m w m' w') :
      Step ⟨m, before ++ w :: after⟩ ⟨m', before ++ w' :: after⟩

/-- Any number of turns, in any order of the workers. -/
abbrev Run : Pool σ ρ → Pool σ ρ → Prop := Relation.ReflTransGen (Step turn)

end Turns

variable {turn : σ → ρ → σ → ρ → Prop} {p q : Pool σ ρ}

/-- What every turn preserves, a run preserves. -/
theorem Run.inv {P : Pool σ ρ → Prop} (hr : Run turn p q) (hp : P p)
    (h : ∀ p q, P p → Step turn p q → P q) : P q := by
  induction hr with
  | refl => exact hp
  | tail _ hs ih => exact h _ _ ih hs

/-- No turn adds a worker or takes one away. -/
theorem Run.length_eq (hr : Run turn p q) : q.workers.length = p.workers.length := by
  apply hr.inv (P := fun r => r.workers.length = p.workers.length) rfl
  intro r s h hs
  cases hs with
  | turn before after ht =>
    rw [← h]
    simp

/-- A pool can go on as long as one of its workers can. -/
theorem exists_step_iff :
    (∃ q, Step turn p q) ↔ ∃ w ∈ p.workers, ∃ m' w', turn p.shared w m' w' := by
  constructor
  · intro ⟨q, hs⟩
    cases hs with
    | turn before after h =>
      exact ⟨_, List.mem_append_right _ List.mem_cons_self, _, _, h⟩
  · intro ⟨w, hw, m', w', h⟩
    obtain ⟨before, after, hl⟩ := List.append_of_mem hw
    obtain ⟨m, ws⟩ := p
    have hl : ws = before ++ w :: after := hl
    subst hl
    exact ⟨_, Step.turn before after h⟩

/-! ## Every run ends -/

/-- The cost of a pool: what the memory and each worker have left to pay. -/
def cost (memory : σ → Nat) (weight : ρ → Nat) (p : Pool σ ρ) : Nat :=
  memory p.shared + (p.workers.map weight).sum

theorem cost_lt (memory : σ → Nat) (weight : ρ → Nat)
    (h : ∀ m w m' w', turn m w m' w' → memory m' + weight w' < memory m + weight w)
    (hs : Step turn p q) : q.cost memory weight < p.cost memory weight := by
  cases hs with
  | turn before after ht =>
    have := h _ _ _ _ ht
    simp only [cost, List.map_append, List.map_cons, List.sum_append, List.sum_cons]
    omega

/-- Where each turn lowers a cost, no run goes on forever. -/
theorem wellFounded_step (memory : σ → Nat) (weight : ρ → Nat)
    (h : ∀ m w m' w', turn m w m' w' → memory m' + weight w' < memory m + weight w) :
    WellFounded fun q p => Step turn p q :=
  Subrelation.wf (fun hs => cost_lt memory weight h hs) (measure (cost memory weight)).wf

/-- A pool whose runs all end reaches one that cannot go on. -/
theorem exists_stuck (hw : WellFounded fun q p => Step turn p q) (p : Pool σ ρ) :
    ∃ q, Run turn p q ∧ ¬ ∃ r, Step turn q r := by
  induction p using hw.induction with
  | _ p ih =>
    by_cases h : ∃ q, Step turn p q
    · obtain ⟨q, hs⟩ := h
      obtain ⟨r, hr, hn⟩ := ih q hs
      exact ⟨r, Relation.ReflTransGen.head hs hr, hn⟩
    · exact ⟨p, Relation.ReflTransGen.refl, h⟩

/-! ## What the workers hold -/

open scoped List in
/-- What all workers hold together grows by what the worker on turn adds. -/
theorem flatMap_turn {α : Type} {f : ρ → List α} {w w' : ρ} {new : List α}
    (before after : List ρ) (h : (f w').Perm (f w ++ new)) :
    ((before ++ w' :: after).flatMap f).Perm ((before ++ w :: after).flatMap f ++ new) := by
  simp only [List.flatMap_append, List.flatMap_cons, List.append_assoc]
  refine List.Perm.append_left _ ?_
  calc f w' ++ after.flatMap f
      ~ (f w ++ new) ++ after.flatMap f := h.append_right _
    _ ~ f w ++ (after.flatMap f ++ new) := by
      rw [List.append_assoc]
      exact List.Perm.append_left _ List.perm_append_comm

/-- A turn leaves every worker but one as it was. -/
theorem mem_turn {w w' v : ρ} {before after : List ρ} (hv : v ∈ before ++ w' :: after) :
    v = w' ∨ v ∈ before ++ w :: after := by
  rcases List.mem_append.mp hv with hv | hv
  · exact Or.inr (List.mem_append_left _ hv)
  · rcases List.mem_cons.mp hv with hv | hv
    · exact Or.inl hv
    · exact Or.inr (List.mem_append_right _ (List.mem_cons_of_mem _ hv))

end Pool

end Control
