import Mathlib.Data.Set.Insert
import Mathlib.Order.Bounds.Defs

/-
  Walks of a graph from a worklist. A walk enters only vertices with `Enters`, and from a vertex
  it entered it goes on to the vertices of `follows`. What it covers is the least set closed
  under that (`covered_isLeast`), whatever the order in which the worklist is served: a walk
  keeps `Frontier`, and when the worklist is empty the visited vertices are the covered ones
  (`Frontier.visited_iff`).
-/

namespace Graphs.Worklist

variable {α : Type} (Enters : α → Prop) (follows : α → List α)

/-- `s` holds the starts the walk may enter, and with a vertex all it goes on to and may enter. -/
structure Closed (starts s : Set α) : Prop where
  start : ∀ a ∈ starts, Enters a → a ∈ s
  follow : ∀ a ∈ s, ∀ b ∈ follows a, Enters b → b ∈ s

/-- What a walk from `starts` reaches by entering one vertex after another. -/
inductive Covered (starts : Set α) : α → Prop
  | start {a : α} (h : a ∈ starts) (ha : Enters a) : Covered starts a
  | follow {a b : α} (h : Covered starts a) (hb : b ∈ follows a) (hb' : Enters b) :
    Covered starts b

theorem covered_isLeast (starts : Set α) :
    IsLeast {s | Closed Enters follows starts s} {a | Covered Enters follows starts a} := by
  refine ⟨⟨fun a ha he => .start ha he, fun a ha b hb he => .follow ha hb he⟩, ?_⟩
  intro s hs a ha
  induction ha with
  | start h he => exact hs.start _ h he
  | follow _ hb he ih => exact hs.follow _ ih _ hb he

variable {Enters follows} {starts starts' visited : Set α} {pending pending' : List α} {a : α}

theorem Covered.mono (hsub : starts ⊆ starts') (h : Covered Enters follows starts a) :
    Covered Enters follows starts' a := by
  induction h with
  | start h he => exact .start (hsub h) he
  | follow _ hb he ih => exact .follow ih hb he

theorem Covered.enters (h : Covered Enters follows starts a) : Enters a := by
  cases h with
  | start _ ha => exact ha
  | follow _ _ ha => exact ha

variable (Enters follows) in
/-- The state of a walk: what it visited and what still waits on its worklist. -/
structure Frontier (starts visited : Set α) (pending : List α) : Prop where
  sound : ∀ a ∈ visited, Covered Enters follows starts a
  waiting : ∀ a ∈ pending, Enters a → Covered Enters follows starts a
  started : ∀ a ∈ starts, Enters a → a ∈ visited ∨ a ∈ pending
  closed : ∀ a ∈ visited, ∀ b ∈ follows a, Enters b → b ∈ visited ∨ b ∈ pending

namespace Frontier

theorem empty : Frontier Enters follows ∅ ∅ [] where
  sound _ h := absurd h (Set.notMem_empty _)
  waiting _ h := absurd h List.not_mem_nil
  started _ h := absurd h (Set.notMem_empty _)
  closed _ h := absurd h (Set.notMem_empty _)

/-- A finished walk goes on with one more start. -/
theorem restart (h : Frontier Enters follows starts visited []) (a : α) :
    Frontier Enters follows (insert a starts) visited [a] where
  sound b hb := (h.sound b hb).mono (Set.subset_insert a starts)
  waiting b hb he := .start (Or.inl (List.mem_singleton.mp hb)) he
  started b hb he := by
    rcases hb with rfl | hb
    · exact Or.inr List.mem_cons_self
    · exact Or.inl ((h.started b hb he).resolve_right List.not_mem_nil)
  closed b hb c hc he := Or.inl ((h.closed b hb c hc he).resolve_right List.not_mem_nil)

/-- The head of the worklist is dropped when the walk may not enter it, or did already. -/
theorem skip (h : Frontier Enters follows starts visited (a :: pending))
    (ha : Enters a → a ∈ visited) : Frontier Enters follows starts visited pending := by
  have hdrop (b : α) (he : Enters b) (hb : b ∈ visited ∨ b ∈ a :: pending) :
      b ∈ visited ∨ b ∈ pending := by
    rcases hb with hb | hb
    · exact Or.inl hb
    · rcases List.mem_cons.mp hb with rfl | hb
      · exact Or.inl (ha he)
      · exact Or.inr hb
  exact ⟨h.sound, fun b hb => h.waiting b (List.mem_cons_of_mem a hb),
    fun b hb he => hdrop b he (h.started b hb he),
    fun b hb c hc he => hdrop c he (h.closed b hb c hc he)⟩

/-- The head of the worklist is entered, and of what follows it at least the vertices that are not
    yet visited join the worklist. -/
theorem enter (h : Frontier Enters follows starts visited (a :: pending)) (ha : Enters a)
    (hsub : ∀ b ∈ pending', b ∈ follows a ∨ b ∈ pending) (hkeep : ∀ b ∈ pending, b ∈ pending')
    (hnew : ∀ b ∈ follows a, Enters b → b ∈ insert a visited ∨ b ∈ pending') :
    Frontier Enters follows starts (insert a visited) pending' := by
  have hcov : Covered Enters follows starts a := h.waiting a List.mem_cons_self ha
  have hmove (b : α) (hb : b ∈ visited ∨ b ∈ a :: pending) :
      b ∈ insert a visited ∨ b ∈ pending' := by
    rcases hb with hb | hb
    · exact Or.inl (Or.inr hb)
    · rcases List.mem_cons.mp hb with hb | hb
      · exact Or.inl (Or.inl hb)
      · exact Or.inr (hkeep b hb)
  constructor
  · intro b hb
    rcases hb with rfl | hb
    · exact hcov
    · exact h.sound b hb
  · intro b hb he
    rcases hsub b hb with hb | hb
    · exact .follow hcov hb he
    · exact h.waiting b (List.mem_cons_of_mem a hb) he
  · intro b hb he
    exact hmove b (h.started b hb he)
  · intro b hb c hc he
    rcases hb with rfl | hb
    · exact hnew c hc he
    · exact hmove c (h.closed b hb c hc he)

/-- The head of the worklist is entered, and what follows it joins the worklist at any place. -/
theorem visit (h : Frontier Enters follows starts visited (a :: pending)) (ha : Enters a)
    (hp : ∀ b, b ∈ pending' ↔ b ∈ follows a ∨ b ∈ pending) :
    Frontier Enters follows starts (insert a visited) pending' :=
  h.enter ha (fun b hb => (hp b).mp hb) (fun b hb => (hp b).mpr (Or.inr hb))
    fun b hb _ => Or.inr ((hp b).mpr (Or.inl hb))

/-- With nothing left on the worklist, the walk visited what the starts cover. -/
theorem visited_iff (h : Frontier Enters follows starts visited []) :
    a ∈ visited ↔ Covered Enters follows starts a := by
  constructor
  · exact h.sound a
  · intro ha
    induction ha with
    | start hs he => exact (h.started _ hs he).resolve_right List.not_mem_nil
    | follow _ hb he ih => exact (h.closed _ ih _ hb he).resolve_right List.not_mem_nil

theorem isLeast (h : Frontier Enters follows starts visited []) :
    IsLeast {s | Closed Enters follows starts s} visited := by
  have heq : visited = {a | Covered Enters follows starts a} := Set.ext fun a => h.visited_iff
  rw [heq]
  exact covered_isLeast Enters follows starts

end Frontier

end Graphs.Worklist
