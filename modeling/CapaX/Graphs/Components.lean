import CapaX.Collections.OrdSet
import CapaX.Graphs.Worklist
import Mathlib.Algebra.GroupWithZero.Nat
import Mathlib.Algebra.Order.BigOperators.Group.List
import Mathlib.Algebra.Order.Group.Nat
import Mathlib.Data.List.Induction
import Mathlib.Logic.Relation

/-
  Strongly connected components in two passes with explicit stacks, over a successor function and
  its converse.

  * `finishAll` lists the vertices in the order a depth-first search leaves them. What is still
    open when a vertex is left, and a vertex left so far leads to, reaches it (`FinishOrder`).
  * `largeComponent` goes backwards through that list and collects, over the converse, what is not
    yet assigned. The first collection of two or more vertices ends it.

  `largeComponent_iff`: some two vertices reach each other exactly when it finds one. The fuel of
  the loops is the work of the graph: each vertex is entered once, and puts itself and its
  successors on the stack.
-/

namespace Graphs

open Collections Relation

variable {α : Type} [LinearOrder α]

/-- `b` can be reached from `a`. -/
abbrev Reach (succ : α → List α) : α → α → Prop := ReflTransGen fun a b => b ∈ succ a

/-! ## Leaving order -/

/-- A depth-first search: the stack with its finished-marks, the vertices entered, and the
    vertices left, in the order they were left. -/
structure Search (α : Type) [LinearOrder α] where
  stack : List (α × Bool)
  visited : OrdSet α
  order : List α

/-- Put the vertices on the stack that are not visited. -/
def pushFresh (visited : OrdSet α) (next : List α) (stack : List (α × Bool)) : List (α × Bool) :=
  next.foldl (fun stack b => if b ∈ visited then stack else (b, false) :: stack) stack

theorem pushFresh_eq (visited : OrdSet α) (next : List α) (stack : List (α × Bool)) :
    pushFresh visited next stack =
      ((next.filter fun b => decide (b ∉ visited)).reverse.map fun b => (b, false)) ++ stack := by
  unfold pushFresh
  induction next generalizing stack with
  | nil => rfl
  | cons b next ih =>
    rw [List.foldl_cons, ih]
    by_cases hb : b ∈ visited
    · simp [hb]
    · simp [hb]

def finishLoop (succ : α → List α) : Nat → Search α → Option (Search α)
  | 0, _ => none
  | fuel + 1, s =>
    match s.stack with
    | [] => some s
    | (node, true) :: rest =>
      finishLoop succ fuel { s with stack := rest, order := s.order ++ [node] }
    | (node, false) :: rest =>
      if node ∈ s.visited then finishLoop succ fuel { s with stack := rest }
      else
        let visited := s.visited.insert node
        finishLoop succ fuel
          { s with
            stack := pushFresh visited (succ node) ((node, true) :: rest)
            visited := visited }

/-- Search from every vertex of a list that is not yet visited. -/
def finishAll (succ : α → List α) (fuel : Nat) (nodes : List α) : Option (Search α) :=
  nodes.foldlM (fun s start =>
    if start ∈ s.visited then some s
    else finishLoop succ fuel { s with stack := [(start, false)] }) ⟨[], ∅, []⟩

/-- When a vertex `w` of the list is left, it is reached by every vertex still to be left that one
    of the vertices left so far leads to. -/
def FinishOrder (succ : α → List α) (order : List α) : Prop :=
  ∀ l w r, order = l ++ w :: r → ∀ v ∈ l ++ [w], ∀ x ∈ succ v, x ∉ l ++ [w] → Reach succ x w

/-- The vertices that are entered and not yet left, the innermost first. -/
def Search.opened (s : Search α) : List α := (s.stack.filter (·.2)).map (·.1)

/-- The invariant of a search. -/
structure Search.Good (succ : α → List α) (s : Search α) : Prop where
  /-- what stands above an open vertex can be reached from it -/
  reach : s.stack.Pairwise fun a b => b.2 = true → Reach succ b.1 a.1
  visited : ∀ y, y ∈ s.visited ↔ y ∈ s.order ∨ (y, true) ∈ s.stack
  nodup : (s.order ++ s.opened).Nodup
  /-- a successor of an open vertex is visited, or waits above it -/
  waiting : ∀ above x below, s.stack = above ++ (x, true) :: below →
    ∀ v ∈ succ x, v ∈ s.visited ∨ (v, false) ∈ above
  finished : ∀ v ∈ s.order, ∀ x ∈ succ v, x ∈ s.visited
  ordered : FinishOrder succ s.order

namespace Search.Good

variable {succ : α → List α} {s : Search α} {node : α} {rest : List (α × Bool)}

/-- The head of the stack is dropped when it is visited. -/
theorem skip (h : s.Good succ) (hs : s.stack = (node, false) :: rest) (hnode : node ∈ s.visited) :
    Search.Good succ { s with stack := rest } where
  reach := (List.pairwise_cons.mp (hs ▸ h.reach)).2
  visited y := by
    rw [h.visited y, hs]
    simp
  nodup := by
    have hopened : s.opened = Search.opened { s with stack := rest } := by
      simp [Search.opened, hs]
    rw [← hopened]
    exact h.nodup
  waiting above x below hstack v hv := by
    have hrest : rest = above ++ (x, true) :: below := hstack
    rcases h.waiting ((node, false) :: above) x below (by rw [hs, hrest]; rfl) v hv with hv | hv
    · exact Or.inl hv
    · rcases List.mem_cons.mp hv with hv | hv
      · obtain rfl := (Prod.mk.inj hv).1
        exact Or.inl hnode
      · exact Or.inr hv
  finished := h.finished
  ordered := h.ordered

theorem mem_opened {y : α} : y ∈ s.opened ↔ (y, true) ∈ s.stack := by
  simp [Search.opened]

/-- The innermost open vertex is left: all its successors are visited, and each of them that is
    still open stands below it on the stack. -/
theorem leave (h : s.Good succ) (hs : s.stack = (node, true) :: rest) :
    Search.Good succ { s with stack := rest, order := s.order ++ [node] } := by
  have hreach := List.pairwise_cons.mp (hs ▸ h.reach)
  have hopened : s.opened = node :: Search.opened { s with stack := rest } := by
    simp [Search.opened, hs]
  have hfinished : ∀ v ∈ s.order ++ [node], ∀ x ∈ succ v, x ∈ s.visited := by
    intro v hv x hx
    rcases List.mem_append.mp hv with hv | hv
    · exact h.finished v hv x hx
    · rw [List.mem_singleton.mp hv] at hx
      exact (h.waiting [] node rest hs x hx).resolve_right List.not_mem_nil
  refine ⟨hreach.2, fun y => ?_, ?_, fun above x below hstack v hv => ?_, hfinished, ?_⟩
  · rw [h.visited y, hs]
    simp [or_assoc]
  · have hnodup := h.nodup
    rw [hopened] at hnodup
    show ((s.order ++ [node]) ++ _).Nodup
    rw [List.append_assoc]
    exact hnodup
  · have hrest : rest = above ++ (x, true) :: below := hstack
    rcases h.waiting ((node, true) :: above) x below (by rw [hs, hrest]; rfl) v hv with hv | hv
    · exact Or.inl hv
    · exact Or.inr (List.mem_of_ne_of_mem (by simp) hv)
  · intro l w r hsplit v hv x hx hout
    have he : s.order ++ [node] = l ++ w :: r := hsplit
    rcases List.eq_nil_or_concat r with rfl | ⟨r', z, rfl⟩
    · obtain ⟨rfl, hw⟩ := List.append_inj' he rfl
      obtain rfl := (List.cons.inj hw).1
      have hopen : (x, true) ∈ s.stack := by
        refine ((h.visited x).mp (hfinished v hv x hx)).resolve_left fun horder => ?_
        exact hout (List.mem_append_left _ horder)
      rw [hs] at hopen
      have hne : (x, true) ≠ (node, true) := by
        rintro he
        exact hout (List.mem_append_right _ (List.mem_singleton.mpr (Prod.mk.inj he).1))
      exact hreach.1 (x, true) (List.mem_of_ne_of_mem hne hopen) rfl
    · have he' : s.order ++ [node] = (l ++ w :: r') ++ [z] := by
        rw [he, List.concat_eq_append, List.append_assoc, List.cons_append]
      exact h.ordered l w r' (List.append_inj' he' rfl).1 v hv x hx hout

/-- A vertex is entered: it is open, and its successors that are not visited wait above it. -/
theorem enter (h : s.Good succ) (hs : s.stack = (node, false) :: rest) (hnode : node ∉ s.visited) :
    Search.Good succ { s with
      stack := pushFresh (s.visited.insert node) (succ node) ((node, true) :: rest)
      visited := s.visited.insert node } := by
  obtain ⟨fresh, hfresh⟩ : ∃ fresh, fresh =
    (succ node).filter fun b => decide (b ∉ s.visited.insert node) := ⟨_, rfl⟩
  have hreach := List.pairwise_cons.mp (hs ▸ h.reach)
  rw [pushFresh_eq, ← hfresh]
  have hmem : ∀ b, b ∈ fresh ↔ b ∈ succ node ∧ b ∉ s.visited.insert node := by
    intro b
    rw [hfresh, List.mem_filter, decide_eq_true_eq]
  have hlost : node ∉ s.order ∧ (node, true) ∉ s.stack := not_or.mp (mt (h.visited node).mpr hnode)
  refine ⟨?_, fun y => ?_, ?_, fun above x below hstack v hv => ?_, fun v hv x hx => ?_, h.ordered⟩
  · refine List.pairwise_append.mpr ⟨?_, List.pairwise_cons.mpr ⟨?_, hreach.2⟩, ?_⟩
    · exact List.pairwise_map.mpr (List.pairwise_of_forall fun _ _ hopen => nomatch hopen)
    · exact hreach.1
    · intro a ha b hb hopen
      obtain ⟨c, hc, rfl⟩ := List.mem_map.mp ha
      have hc := ((hmem c).mp (List.mem_reverse.mp hc)).1
      rcases List.mem_cons.mp hb with rfl | hb
      · exact .single hc
      · exact (hreach.1 b hb hopen).tail hc
  · rw [OrdSet.mem_insert, h.visited y, hs]
    simp
    tauto
  · have hopened : s.opened = (rest.filter (·.2)).map (·.1) := by simp [Search.opened, hs]
    have hnew : Search.opened { s with
        stack := (fresh.reverse.map fun b => (b, false)) ++ (node, true) :: rest
        visited := s.visited.insert node } = node :: s.opened := by
      rw [hopened]
      simp [Search.opened]
    rw [hnew]
    refine List.nodup_middle.mpr (List.nodup_cons.mpr ⟨fun hnot => ?_, h.nodup⟩)
    rcases List.mem_append.mp hnot with hnot | hnot
    · exact hlost.1 hnot
    · exact hlost.2 (mem_opened.mp hnot)
  · have hnext : ∀ v ∈ succ node, v ∈ s.visited.insert node ∨
        (v, false) ∈ fresh.reverse.map fun b => (b, false) := by
      intro v hv
      by_cases hseen : v ∈ s.visited.insert node
      · exact Or.inl hseen
      · exact Or.inr (List.mem_map.mpr
          ⟨v, List.mem_reverse.mpr ((hmem v).mpr ⟨hv, hseen⟩), rfl⟩)
    rcases List.append_eq_append_iff.mp hstack with
      ⟨between, habove, hbelow⟩ | ⟨between, habove, hbelow⟩
    · cases between with
      | nil =>
        obtain rfl := (Prod.mk.inj (List.cons.inj hbelow).1).1
        rw [habove, List.append_nil]
        exact hnext v hv
      | cons first between =>
        obtain ⟨rfl, hrest⟩ := List.cons.inj hbelow
        rw [habove]
        rcases h.waiting ((node, false) :: between) x below (by rw [hs, hrest]; rfl) v hv with
          hv | hv
        · exact Or.inl (OrdSet.mem_insert.mpr (Or.inr hv))
        · rcases List.mem_cons.mp hv with hv | hv
          · exact Or.inl (OrdSet.mem_insert.mpr (Or.inl (Prod.mk.inj hv).1))
          · exact Or.inr (List.mem_append_right _ (List.mem_cons_of_mem _ hv))
    · cases between with
      | nil =>
        obtain rfl := (Prod.mk.inj (List.cons.inj hbelow).1).1
        rw [List.append_nil] at habove
        rw [← habove]
        exact hnext v hv
      | cons first between =>
        obtain rfl := (List.cons.inj hbelow).1
        have hfirst : (x, true) ∈ fresh.reverse.map fun b => (b, false) := by
          rw [habove]
          exact List.mem_append_right _ List.mem_cons_self
        obtain ⟨_, _, hne⟩ := List.mem_map.mp hfirst
        cases (Prod.mk.inj hne).2
  · exact OrdSet.mem_insert.mpr (Or.inr (h.finished v hv x hx))

end Search.Good

/-! ### The loops -/

/-- What is left to do: each vertex not yet visited puts itself and its successors on the stack. -/
def work (succ : α → List α) (nodes : List α) (visited : OrdSet α) : Nat :=
  ((nodes.filter fun a => decide (a ∉ visited)).map fun a => (succ a).length + 1).sum

section

variable {succ : α → List α} {nodes : List α} {visited visited' : OrdSet α}

theorem work_mono (h : ∀ a ∈ visited, a ∈ visited') :
    work succ nodes visited' ≤ work succ nodes visited := by
  unfold work
  refine List.Sublist.sum_le_sum ?_ fun _ _ => Nat.zero_le _
  refine List.Sublist.map _ (List.monotone_filter_right nodes fun a ha => ?_)
  rw [decide_eq_true_eq] at ha ⊢
  exact fun hmem => ha (h a hmem)

theorem work_insert {a : α} (ha : a ∈ nodes) (hnew : a ∉ visited) :
    work succ nodes (visited.insert a) + (succ a).length + 1 ≤ work succ nodes visited := by
  induction nodes with
  | nil => exact absurd ha List.not_mem_nil
  | cons b nodes ih =>
    have hmono : work succ nodes (visited.insert a) ≤ work succ nodes visited :=
      work_mono fun x hx => OrdSet.mem_insert.mpr (Or.inr hx)
    by_cases hb : b = a
    · subst hb
      simp only [work, List.filter_cons, OrdSet.mem_insert, true_or, not_true_eq_false, hnew,
        not_false_eq_true, decide_true, decide_false, if_true, List.map_cons,
        List.sum_cons] at hmono ⊢
      simp only [Bool.false_eq_true, if_false]
      omega
    · have ih := ih ((List.mem_cons.mp ha).resolve_left fun he => hb he.symm)
      by_cases hseen : b ∈ visited
      · simp only [work, List.filter_cons, OrdSet.mem_insert, hb, hseen] at ih ⊢
        simpa using ih
      · simp only [work, List.filter_cons, OrdSet.mem_insert, hb, hseen, false_or,
          not_false_eq_true, decide_true, if_true, List.map_cons, List.sum_cons] at ih ⊢
        omega

theorem length_pushFresh_le (next : List α) (stack : List (α × Bool)) :
    (pushFresh visited next stack).length ≤ next.length + stack.length := by
  rw [pushFresh_eq, List.length_append, List.length_map, List.length_reverse]
  have hle := List.length_filter_le (fun b => decide (b ∉ visited)) next
  omega

theorem mem_pushFresh {next : List α} {stack : List (α × Bool)} {e : α × Bool}
    (h : e ∈ pushFresh visited next stack) : e.1 ∈ next ∨ e ∈ stack := by
  rw [pushFresh_eq] at h
  rcases List.mem_append.mp h with h | h
  · obtain ⟨b, hb, rfl⟩ := List.mem_map.mp h
    exact Or.inl (List.mem_filter.mp (List.mem_reverse.mp hb)).1
  · exact Or.inr h

theorem subset_pushFresh {next : List α} {stack : List (α × Bool)} {e : α × Bool}
    (h : e ∈ stack) : e ∈ pushFresh visited next stack := by
  rw [pushFresh_eq]
  exact List.mem_append_right _ h

/-- A search ends with an empty stack, and has visited what stood on it, and no other vertices than
    those of the graph. -/
theorem finishLoop_spec (hclosed : ∀ a, ∀ b ∈ succ a, b ∈ nodes) {fuel : Nat} {s : Search α}
    (h : s.Good succ) (hstack : ∀ e ∈ s.stack, e.1 ∈ nodes)
    (hf : work succ nodes s.visited + s.stack.length < fuel) :
    ∃ s', finishLoop succ fuel s = some s' ∧ s'.Good succ ∧ s'.stack = [] ∧
      (∀ y ∈ s.visited, y ∈ s'.visited) ∧ (∀ y ∈ s'.visited, y ∈ s.visited ∨ y ∈ nodes) ∧
      ∀ e ∈ s.stack, e.1 ∈ s'.visited := by
  induction fuel generalizing s with
  | zero => exact absurd hf (Nat.not_lt_zero _)
  | succ fuel ih =>
    unfold finishLoop
    split
    · next hnil =>
      refine ⟨s, rfl, h, hnil, fun _ hy => hy, fun _ hy => Or.inl hy, fun e he => ?_⟩
      rw [hnil] at he
      exact absurd he List.not_mem_nil
    · next node rest hs =>
      have hnode : node ∈ s.visited := (h.visited node).mpr (Or.inr (hs ▸ List.mem_cons_self))
      rw [hs, List.length_cons] at hf
      obtain ⟨s', hrun, hgood, hnil, hmono, hnodes, hseen⟩ := ih (h.leave hs)
        (fun e he => hstack e (hs ▸ List.mem_cons_of_mem _ he)) (by
          show work succ nodes s.visited + rest.length < fuel
          omega)
      refine ⟨s', hrun, hgood, hnil, hmono, hnodes, fun e he => ?_⟩
      rcases List.mem_cons.mp (hs ▸ he) with rfl | he
      · exact hmono _ hnode
      · exact hseen e he
    · next node rest hs =>
      rw [hs, List.length_cons] at hf
      split
      · next hnode =>
        obtain ⟨s', hrun, hgood, hnil, hmono, hnodes, hseen⟩ := ih (h.skip hs hnode)
          (fun e he => hstack e (hs ▸ List.mem_cons_of_mem _ he)) (by
            show work succ nodes s.visited + rest.length < fuel
            omega)
        refine ⟨s', hrun, hgood, hnil, hmono, hnodes, fun e he => ?_⟩
        rcases List.mem_cons.mp (hs ▸ he) with rfl | he
        · exact hmono _ hnode
        · exact hseen e he
      · next hnode =>
        have hmem : node ∈ nodes := hstack (node, false) (hs ▸ List.mem_cons_self)
        have hwork : work succ nodes (s.visited.insert node) + (succ node).length + 1 ≤
            work succ nodes s.visited := work_insert hmem hnode
        have hlength :
            (pushFresh (s.visited.insert node) (succ node) ((node, true) :: rest)).length ≤
            (succ node).length + ((node, true) :: rest).length := length_pushFresh_le _ _
        rw [List.length_cons] at hlength
        obtain ⟨s', hrun, hgood, hnil, hmono, hnodes, hseen⟩ := ih (h.enter hs hnode)
          (fun e he => by
            rcases mem_pushFresh he with he | he
            · exact hclosed node _ he
            · rcases List.mem_cons.mp he with rfl | he
              · exact hmem
              · exact hstack e (hs ▸ List.mem_cons_of_mem _ he)) (by
            show work succ nodes (s.visited.insert node) + (pushFresh _ _ _).length < fuel
            omega)
        refine ⟨s', hrun, hgood, hnil, fun y hy => hmono y (OrdSet.mem_insert.mpr (Or.inr hy)),
          fun y hy => ?_, fun e he => ?_⟩
        · rcases hnodes y hy with hy | hy
          · rcases OrdSet.mem_insert.mp hy with rfl | hy
            · exact Or.inr hmem
            · exact Or.inl hy
          · exact Or.inr hy
        rcases List.mem_cons.mp (hs ▸ he) with rfl | he
        · exact hmono _ (OrdSet.mem_insert.mpr (Or.inl rfl))
        · exact hseen e (subset_pushFresh (List.mem_cons_of_mem _ he))

/-- A finished search goes on from one more start. -/
theorem Search.Good.restart {s : Search α} (h : s.Good succ) (hs : s.stack = []) (start : α) :
    Search.Good succ { s with stack := [(start, false)] } where
  reach := List.pairwise_singleton _ _
  visited y := by
    rw [h.visited y, hs]
    simp
  nodup := by
    have hnodup := h.nodup
    have hnil : s.opened = [] := by simp [Search.opened, hs]
    rw [hnil] at hnodup
    exact hnodup
  waiting above x below hstack := by
    have hone : [(start, false)] = above ++ (x, true) :: below := hstack
    have hmem : (x, true) ∈ [(start, false)] := by
      rw [hone]
      exact List.mem_append_right _ List.mem_cons_self
    cases List.mem_singleton.mp hmem
  finished := h.finished
  ordered := h.ordered

theorem Search.Good.init (succ : α → List α) : Search.Good succ (⟨[], ∅, []⟩ : Search α) where
  reach := .nil
  visited y := by simp
  nodup := List.nodup_nil
  waiting above x below hstack := absurd hstack.symm (List.append_ne_nil_of_right_ne_nil above
    (List.cons_ne_nil _ _))
  finished v hv := absurd hv List.not_mem_nil
  ordered l w r he := absurd he.symm (List.append_ne_nil_of_right_ne_nil l (List.cons_ne_nil _ _))

/-- Searching from every vertex leaves every vertex once, in finishing order. -/
theorem finishAll_spec (hclosed : ∀ a, ∀ b ∈ succ a, b ∈ nodes) {fuel : Nat}
    (hf : work succ nodes ∅ + 1 < fuel) :
    ∃ s, finishAll succ fuel nodes = some s ∧ s.order.Nodup ∧ FinishOrder succ s.order ∧
      ∀ y, y ∈ s.order ↔ y ∈ nodes := by
  have hgo : ∀ starts : List α, (∀ a ∈ starts, a ∈ nodes) → ∀ s : Search α, s.Good succ →
      s.stack = [] → ∃ s', starts.foldlM (fun s start =>
        if start ∈ s.visited then some s
        else finishLoop succ fuel { s with stack := [(start, false)] }) s = some s' ∧
      s'.Good succ ∧ s'.stack = [] ∧ (∀ y ∈ s.visited, y ∈ s'.visited) ∧
      (∀ y ∈ s'.visited, y ∈ s.visited ∨ y ∈ nodes) ∧ ∀ a ∈ starts, a ∈ s'.visited := by
    intro starts
    induction starts with
    | nil => exact fun _ s h hs => ⟨s, rfl, h, hs, fun _ hy => hy, fun _ hy => Or.inl hy, nofun⟩
    | cons start starts ih =>
      intro hstarts s h hs
      obtain ⟨hstart, hstarts⟩ := List.forall_mem_cons.mp hstarts
      rw [List.foldlM_cons]
      by_cases hseen : start ∈ s.visited
      · rw [if_pos hseen]
        obtain ⟨s', hrun, hgood, hnil, hmono, hnodes, hall⟩ := ih hstarts s h hs
        exact ⟨s', hrun, hgood, hnil, hmono, hnodes,
          List.forall_mem_cons.mpr ⟨hmono start hseen, hall⟩⟩
      · rw [if_neg hseen]
        have hwork : work succ nodes s.visited ≤ work succ nodes ∅ :=
          work_mono fun a ha => absurd ha (OrdSet.not_mem_empty a)
        obtain ⟨s1, hrun1, hgood1, hnil1, hmono1, hnodes1, hseen1⟩ := finishLoop_spec hclosed
          (h.restart hs start) (by simpa using hstart) (by
            show work succ nodes s.visited + 1 < fuel
            omega)
        obtain ⟨s', hrun, hgood, hnil, hmono, hnodes, hall⟩ := ih hstarts s1 hgood1 hnil1
        refine ⟨s', by rw [hrun1]; exact hrun, hgood, hnil, fun y hy => hmono y (hmono1 y hy),
          fun y hy => (hnodes y hy).elim (hnodes1 y) Or.inr,
          List.forall_mem_cons.mpr ⟨hmono start ?_, hall⟩⟩
        exact hseen1 (start, false) List.mem_cons_self
  obtain ⟨s, hrun, hgood, hnil, -, hnodes, hall⟩ := hgo nodes (fun _ h => h) _ (.init succ) rfl
  have hvisited : ∀ y, y ∈ s.visited ↔ y ∈ s.order := by
    intro y
    rw [hgood.visited y, hnil]
    simp
  refine ⟨s, hrun, (List.nodup_append.mp hgood.nodup).1, hgood.ordered, fun y => ?_⟩
  rw [← hvisited y]
  exact ⟨fun hy => (hnodes y hy).resolve_left (OrdSet.not_mem_empty y), hall y⟩

/-! ## Components -/

/-- A walk that leaves a list of vertices leaves it somewhere. -/
theorem exists_exit {r : α → α → Prop} {a b : α} {q : List α} (h : ReflTransGen r a b)
    (ha : a ∈ q) (hb : b ∉ q) : ∃ u ∈ q, ∃ x, x ∉ q ∧ r u x ∧ ReflTransGen r x b := by
  induction h using ReflTransGen.head_induction_on with
  | refl => exact absurd ha hb
  | @head a c hac hcb ih =>
    by_cases hc : c ∈ q
    · exact ih hc
    · exact ⟨a, ha, c, hc, hac, hcb⟩

/-- What reaches `s` through vertices left no later than `s` is reached by `s`. -/
theorem FinishOrder.back {order l r : List α} {s w : α} (h : FinishOrder succ order)
    (hn : order.Nodup) (he : order = l ++ s :: r) (hw : w ∈ l ++ [s])
    (path : ReflTransGen (fun a b => b ∈ succ a ∧ b ∈ l ++ [s]) w s) : Reach succ s w := by
  have hs : s ∉ l := by
    rw [he] at hn
    exact fun hmem => (List.nodup_append.mp hn).2.2 s hmem s List.mem_cons_self rfl
  -- by induction on the number of vertices left between `w` and `s`
  have hgo : ∀ n l1 w l2, l = l1 ++ w :: l2 → l2.length = n →
      ReflTransGen (fun a b => b ∈ succ a ∧ b ∈ l ++ [s]) w s → Reach succ s w := by
    intro n
    induction n using Nat.strong_induction_on with
    | _ n ih =>
      rintro l1 w l2 hl rfl path
      have hout : s ∉ l1 ++ [w] := by
        intro hmem
        refine hs ?_
        rw [hl, List.append_cons]
        exact List.mem_append_left _ hmem
      obtain ⟨u, hu, x, hx, ⟨hux, hxl⟩, hpath⟩ := exists_exit path
        (List.mem_append_right l1 List.mem_cons_self) hout
      have hxw : Reach succ x w := by
        refine h l1 w (l2 ++ s :: r) ?_ u hu x hux hx
        rw [he, hl, List.append_assoc]
        rfl
      rcases List.mem_append.mp hxl with hxl | hxl
      · rw [hl, List.append_cons] at hxl
        obtain ⟨a, b, rfl⟩ := List.append_of_mem ((List.mem_append.mp hxl).resolve_left hx)
        have hlater : Reach succ s x := by
          refine ih b.length ?_ (l1 ++ w :: a) x b ?_ rfl hpath
          · rw [List.length_append, List.length_cons]
            omega
          · rw [hl, List.append_assoc]
            rfl
        exact hlater.trans hxw
      · rw [← List.mem_singleton.mp hxl]
        exact hxw
  rcases List.mem_append.mp hw with hw | hw
  · obtain ⟨l1, l2, hl⟩ := List.append_of_mem hw
    exact hgo l2.length l1 w l2 hl rfl path
  · rw [List.mem_singleton.mp hw]

/-- Collect from a stack, over the converse, what is not yet assigned, and count it. -/
def componentLoop (preds : α → List α) : Nat → List α → OrdSet α → Nat → Option (OrdSet α × Nat)
  | 0, _, _, _ => none
  | _ + 1, [], assigned, size => some (assigned, size)
  | fuel + 1, node :: rest, assigned, size =>
    if node ∈ assigned then componentLoop preds fuel rest assigned size
    else
      let assigned := assigned.insert node
      componentLoop preds fuel
        ((preds node).foldl (fun stack b => if b ∈ assigned then stack else b :: stack) rest)
        assigned (size + 1)

/-- Collect from one start after another, until a collection has two vertices. -/
def largeComponent (preds : α → List α) (fuel : Nat) : List α → OrdSet α → Option Bool
  | [], _ => some false
  | start :: rest, assigned =>
    if start ∈ assigned then largeComponent preds fuel rest assigned
    else do
      let (assigned, size) ← componentLoop preds fuel [start] assigned 0
      if 2 ≤ size then some true else largeComponent preds fuel rest assigned

/-- The invariant of a collection: what was added to the assigned vertices. -/
structure Collecting (preds : α → List α) (assigned : OrdSet α) (start : α) (stack : List α)
    (now : OrdSet α) (added : List α) : Prop where
  frontier : Worklist.Frontier (· ∉ assigned) preds {start} {y | y ∈ added} stack
  now_iff : ∀ y, y ∈ now ↔ y ∈ assigned ∨ y ∈ added
  nodup : added.Nodup

theorem pushUnassigned_eq (assigned : OrdSet α) (next stack : List α) :
    next.foldl (fun stack b => if b ∈ assigned then stack else b :: stack) stack =
      (next.filter fun b => decide (b ∉ assigned)).reverse ++ stack := by
  induction next generalizing stack with
  | nil => rfl
  | cons b next ih =>
    rw [List.foldl_cons, ih]
    by_cases hb : b ∈ assigned
    · simp [hb]
    · simp [hb]

section

variable {preds : α → List α} {assigned now : OrdSet α} {start node : α} {stack added : List α}

theorem Collecting.skip (h : Collecting preds assigned start (node :: stack) now added)
    (hnode : node ∈ now) : Collecting preds assigned start stack now added where
  frontier := h.frontier.skip fun hnew => ((h.now_iff node).mp hnode).resolve_left hnew
  now_iff := h.now_iff
  nodup := h.nodup

theorem Collecting.enter (h : Collecting preds assigned start (node :: stack) now added)
    (hnode : node ∉ now) :
    Collecting preds assigned start
      (((preds node).filter fun b => decide (b ∉ now.insert node)).reverse ++ stack)
      (now.insert node) (node :: added) := by
  obtain ⟨hold, hadded⟩ := not_or.mp (mt (h.now_iff node).mpr hnode)
  have hset : {y | y ∈ node :: added} = insert node {y | y ∈ added} := by
    ext y
    exact List.mem_cons
  have hnow : ∀ y, y ∈ now.insert node ↔ y ∈ assigned ∨ y ∈ node :: added := by
    intro y
    rw [OrdSet.mem_insert, h.now_iff y, List.mem_cons]
    tauto
  refine ⟨?_, hnow, List.nodup_cons.mpr ⟨hadded, h.nodup⟩⟩
  rw [hset]
  refine h.frontier.enter hold (fun b hb => ?_) (fun b hb => List.mem_append_right _ hb)
    fun b hb hentered => ?_
  · rcases List.mem_append.mp hb with hb | hb
    · exact Or.inl (List.mem_filter.mp (List.mem_reverse.mp hb)).1
    · exact Or.inr hb
  · by_cases hseen : b ∈ now.insert node
    · exact Or.inl (List.mem_cons.mp (((hnow b).mp hseen).resolve_left hentered))
    · refine Or.inr (List.mem_append_left _ (List.mem_reverse.mpr ?_))
      exact List.mem_filter.mpr ⟨hb, decide_eq_true hseen⟩

theorem componentLoop_spec {nodes : List α} (hclosed : ∀ a, ∀ b ∈ preds a, b ∈ nodes)
    {fuel : Nat} (h : Collecting preds assigned start stack now added)
    (hstack : ∀ a ∈ stack, a ∈ nodes) (hf : work preds nodes now + stack.length < fuel) :
    ∃ now' added', componentLoop preds fuel stack now added.length = some (now', added'.length) ∧
      Collecting preds assigned start [] now' added' := by
  induction fuel generalizing stack now added with
  | zero => exact absurd hf (Nat.not_lt_zero _)
  | succ fuel ih =>
    cases stack with
    | nil => exact ⟨now, added, rfl, h⟩
    | cons node stack =>
      rw [List.length_cons] at hf
      obtain ⟨hnode, hstack⟩ := List.forall_mem_cons.mp hstack
      unfold componentLoop
      split
      · next hseen => exact ih (h.skip hseen) hstack (by omega)
      · next hnew =>
        have hwork : work preds nodes (now.insert node) + (preds node).length + 1 ≤
            work preds nodes now := work_insert hnode hnew
        dsimp only
        rw [pushUnassigned_eq]
        refine ih (h.enter hnew) (fun a ha => ?_) ?_
        · rcases List.mem_append.mp ha with ha | ha
          · exact hclosed node a (List.mem_filter.mp (List.mem_reverse.mp ha)).1
          · exact hstack a ha
        · rw [List.length_append, List.length_reverse]
          have hle := List.length_filter_le (fun b => decide (b ∉ now.insert node)) (preds node)
          omega

/-- From one start a collection returns what can be entered backwards from it, counted. -/
theorem componentLoop_start (assigned : OrdSet α) {nodes : List α}
    (hclosed : ∀ a, ∀ b ∈ preds a, b ∈ nodes) {fuel : Nat} (hstart : start ∈ nodes) (hf : work preds nodes ∅ + 1 < fuel) :
    ∃ (now : OrdSet α) (added : List α),
      componentLoop preds fuel [start] assigned 0 = some (now, added.length) ∧
      (∀ y, y ∈ now ↔ y ∈ assigned ∨ y ∈ added) ∧ added.Nodup ∧
      ∀ y, y ∈ added ↔ Worklist.Covered (· ∉ assigned) preds {start} y := by
  have hwork : work preds nodes assigned ≤ work preds nodes ∅ :=
    work_mono fun a ha => absurd ha (OrdSet.not_mem_empty a)
  have hinit : Collecting preds assigned start [start] assigned [] := by
    refine ⟨?_, fun y => by simp, List.nodup_nil⟩
    have hfrontier : Worklist.Frontier (· ∉ assigned) preds ∅ ∅ [] := .empty
    have hempty : {y | y ∈ ([] : List α)} = ∅ := by simp
    rw [hempty, ← LawfulSingleton.insert_empty_eq start]
    exact hfrontier.restart start
  obtain ⟨now, added, hrun, h⟩ := componentLoop_spec hclosed hinit (by simpa using hstart) (by
    show work preds nodes assigned + 1 < fuel
    omega)
  exact ⟨now, added, hrun, h.now_iff, h.nodup, fun y => h.frontier.visited_iff⟩

/-- Going back through a list, each start makes a collection of one vertex or ends the search. A
    collection of one means that nothing left before the start follows it backwards. -/
theorem largeComponent_spec {nodes : List α} (hclosed : ∀ a, ∀ b ∈ preds a, b ∈ nodes)
    {fuel : Nat} (hf : work preds nodes ∅ + 1 < fuel) {order : List α} (hn : order.Nodup)
    (hnodes : ∀ a ∈ order, a ∈ nodes) {l r : List α} (he : order = l ++ r)
    (hassigned : ∀ y, y ∈ assigned ↔ y ∈ r) :
    ∃ b, largeComponent preds fuel l.reverse assigned = some b ∧
      (b = true → ∃ l1 s l2 w, order = l1 ++ s :: l2 ∧ w ≠ s ∧
        Worklist.Covered (· ∉ l2) preds {s} w) ∧
      (b = false → ∀ l1 s l2, l = l1 ++ s :: l2 → ∀ c ∈ preds s, c ∉ l1) := by
  induction l using List.reverseRecOn generalizing r assigned with
  | nil => exact ⟨false, rfl, nofun, fun _ l1 s l2 h => absurd h.symm (by simp)⟩
  | append_singleton l start ih =>
    have he' : order = l ++ start :: r := by rw [he, List.append_assoc]; rfl
    have hstart : start ∈ nodes := hnodes start (he' ▸ List.mem_append_right _ List.mem_cons_self)
    obtain ⟨-, hr, hdisjoint⟩ := List.nodup_append.mp (he' ▸ hn)
    have hnew : start ∉ assigned := fun hmem =>
      (List.nodup_cons.mp hr).1 ((hassigned start).mp hmem)
    obtain ⟨now, added, hrun, hnow, hnodup, hadded⟩ :=
      componentLoop_start assigned hclosed hstart hf
    have hself : start ∈ added := (hadded start).mpr (.start rfl hnew)
    rw [List.reverse_append, List.reverse_singleton, List.singleton_append, largeComponent,
      if_neg hnew, hrun]
    show ∃ b, (if 2 ≤ added.length then some true else _) = some b ∧ _
    by_cases hsize : 2 ≤ added.length
    · rw [if_pos hsize]
      obtain ⟨w, hw, hne⟩ : ∃ w ∈ added, w ≠ start := by
        by_contra hall
        push Not at hall
        rw [List.eq_replicate_of_mem hall, List.nodup_replicate] at hnodup
        omega
      refine ⟨true, rfl, fun _ => ⟨l, start, r, w, he', hne, ?_⟩, nofun⟩
      have hcovered := (hadded w).mp hw
      simpa only [hassigned] using hcovered
    · rw [if_neg hsize]
      have hone : added = [start] := by
        match added, hself with
        | [a], hself => rw [List.mem_singleton.mp hself]
        | _ :: _ :: _, _ => exact absurd (by simp) hsize
      have hnow' : ∀ y, y ∈ now ↔ y ∈ start :: r := by
        intro y
        rw [hnow y, hassigned y, hone, List.mem_singleton, List.mem_cons]
        exact or_comm
      obtain ⟨b, hb, htrue, hfalse⟩ := ih he' hnow'
      refine ⟨b, hb, htrue, fun hbf l1 s l2 hl c hc hmem => ?_⟩
      rcases List.eq_nil_or_concat l2 with rfl | ⟨l2', z, rfl⟩
      · obtain ⟨rfl, hs⟩ := List.append_inj' hl rfl
        obtain rfl := (List.cons.inj hs).1
        have hout : c ∉ assigned := fun hin =>
          hdisjoint c hmem c (List.mem_cons_of_mem _ ((hassigned c).mp hin)) rfl
        have hc' : c ∈ added := (hadded c).mpr (.follow (.start rfl hnew) hc hout)
        rw [hone] at hc'
        exact hdisjoint c hmem start List.mem_cons_self (List.mem_singleton.mp hc')
      · have hl' : l ++ [start] = (l1 ++ s :: l2') ++ [z] := by
          rw [hl, List.concat_eq_append, List.append_assoc, List.cons_append]
        exact hfalse hbf l1 s l2' (List.append_inj' hl' rfl).1 c hc hmem

end

omit [LinearOrder α] in
/-- Of the entries with a property, one is the last. -/
theorem exists_last {p : α → Prop} {l : List α} (h : ∃ x ∈ l, p x) :
    ∃ l1 s l2, l = l1 ++ s :: l2 ∧ p s ∧ ∀ z ∈ l2, ¬ p z := by
  induction l with
  | nil =>
    obtain ⟨x, hx, -⟩ := h
    exact absurd hx List.not_mem_nil
  | cons y l ih =>
    by_cases hrest : ∃ x ∈ l, p x
    · obtain ⟨l1, s, l2, rfl, hs, hlast⟩ := ih hrest
      exact ⟨y :: l1, s, l2, rfl, hs, hlast⟩
    · obtain ⟨x, hx, hpx⟩ := h
      rcases List.mem_cons.mp hx with rfl | hx
      · exact ⟨[], x, l, rfl, hpx, fun z hz hpz => hrest ⟨z, hz, hpz⟩⟩
      · exact absurd ⟨x, hx, hpx⟩ hrest

/-- A walk to another vertex enters it from somewhere else. -/
theorem exists_entry {r : α → α → Prop} {a b : α} (h : ReflTransGen r a b) (hne : a ≠ b) :
    ∃ c, c ≠ b ∧ ReflTransGen r a c ∧ r c b := by
  induction h with
  | refl => exact absurd rfl hne
  | @tail c b hac hcb ih =>
    by_cases hc : c = b
    · subst hc
      exact ih hne
    · exact ⟨c, hc, hac, hcb⟩

/-- The two passes find a component of two or more vertices exactly when there is one. -/
theorem largeComponent_iff {preds : α → List α} (hconverse : ∀ a b, a ∈ preds b ↔ b ∈ succ a)
    (hnodes : ∀ a, ∀ b ∈ succ a, a ∈ nodes ∧ b ∈ nodes) {fuel : Nat}
    (hf : work succ nodes ∅ + 1 < fuel) (hf' : work preds nodes ∅ + 1 < fuel) :
    ∃ s b, finishAll succ fuel nodes = some s ∧
      largeComponent preds fuel s.order.reverse ∅ = some b ∧
      (b = true ↔ ∃ x y, x ≠ y ∧ Reach succ x y ∧ Reach succ y x) := by
  obtain ⟨s, hrun, hn, horder, hall⟩ := finishAll_spec (fun a b hb => (hnodes a b hb).2) hf
  have hpreds : ∀ a, ∀ b ∈ preds a, b ∈ nodes := fun a b hb =>
    (hnodes b a ((hconverse b a).mp hb)).1
  have hempty : ∀ y : α, y ∈ (∅ : OrdSet α) ↔ y ∈ ([] : List α) := fun y => by simp
  obtain ⟨b, hb, htrue, hfalse⟩ := largeComponent_spec hpreds hf' hn (fun a ha => (hall a).mp ha)
    (List.append_nil _).symm hempty
  refine ⟨s, b, hrun, hb, fun hbt => ?_, fun ⟨x, y, hne, hxy, hyx⟩ => ?_⟩
  · -- what a collection adds to its start reaches it, through vertices left before the start
    obtain ⟨l1, t, l2, w, he, hwt, hcovered⟩ := htrue hbt
    have hpath : w ∈ l1 ++ [t] ∧
        ReflTransGen (fun a b => b ∈ succ a ∧ b ∈ l1 ++ [t]) w t := by
      clear hwt
      induction hcovered with
      | start ht _ =>
        rw [ht]
        exact ⟨List.mem_append_right _ List.mem_cons_self, .refl⟩
      | @follow a c _ hc hout ih =>
        have hedge : a ∈ succ c := (hconverse c a).mp hc
        refine ⟨?_, .head ⟨hedge, ih.1⟩ ih.2⟩
        have hmem : c ∈ s.order := (hall c).mpr (hnodes c a hedge).1
        rw [he, List.append_cons] at hmem
        exact (List.mem_append.mp hmem).resolve_right hout
    exact ⟨t, w, hwt.symm, horder.back hn he hpath.1 hpath.2,
      ReflTransGen.mono (fun _ _ h => h.1) _ _ hpath.2⟩
  · -- the last vertex of the component to be left has another one of it as a predecessor
    by_contra hbf
    rw [Bool.not_eq_true] at hbf
    have hmem : ∀ z, z ≠ x → Reach succ z x → z ∈ s.order := by
      intro z hz hzx
      obtain ⟨c, hzc, -⟩ := hzx.cases_head.resolve_left hz
      exact (hall z).mpr (hnodes z c hzc).1
    obtain ⟨l1, t, l2, he, ⟨hxt, htx⟩, hlast⟩ := exists_last (p := fun z => Reach succ x z ∧
      Reach succ z x) ⟨y, hmem y hne.symm hyx, hxy, hyx⟩
    obtain ⟨z, hzt, hxz, hzx⟩ : ∃ z, z ≠ t ∧ Reach succ x z ∧ Reach succ z x := by
      by_cases hx : x = t
      · exact ⟨y, fun hy => hne (hx.trans hy.symm), hxy, hyx⟩
      · exact ⟨x, hx, .refl, .refl⟩
    obtain ⟨c, hct, hzc, hedge⟩ := exists_entry (hzx.trans hxt) hzt
    have hc : c ∈ s.order := (hall c).mpr (hnodes c t hedge).1
    rw [he] at hc
    rcases List.mem_append.mp hc with hc | hc
    · exact hfalse hbf l1 t l2 he c ((hconverse c t).mpr hedge) hc
    · have hc := (List.mem_cons.mp hc).resolve_left hct
      exact hlast c hc ⟨hxz.trans hzc, htx.head hedge⟩

end

end Graphs
