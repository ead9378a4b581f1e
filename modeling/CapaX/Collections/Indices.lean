import CapaX.Collections.OrdSet
import Mathlib.Data.List.Destutter
import Mathlib.Data.List.Sort

/-
  Picking from a list by positions. Positions gathered in any order and with repetitions are
  sorted and freed of repetitions (`distinctIndices`); what they pick and then passes a test is
  what passes the test in the whole list, in its order, when every passing position was gathered
  (`filter_pick`).
-/

namespace Collections

variable {α : Type}

/-- `sort_unstable` and `dedup`: the gathered positions, increasing. -/
def distinctIndices (gathered : List Nat) : List Nat :=
  (gathered.insertionSort (· ≤ ·)).destutter (· ≠ ·)

/-- The entries at the positions that a list has. -/
def pick (xs : List α) (indices : List Nat) : List α := indices.filterMap fun i => xs[i]?

theorem mem_destutter'_ne {a x : Nat} {l : List Nat} :
    x ∈ l.destutter' (· ≠ ·) a ↔ x = a ∨ x ∈ l := by
  induction l generalizing a with
  | nil => simp
  | cons b l ih =>
    by_cases hab : a = b
    · subst hab
      rw [List.destutter'_cons_neg l (not_not.mpr rfl), ih, List.mem_cons]
      tauto
    · rw [List.destutter'_cons_pos l hab, List.mem_cons, ih, List.mem_cons]

theorem pairwise_destutter'_ne {a : Nat} {l : List Nat} (h : (a :: l).Pairwise (· ≤ ·)) :
    (l.destutter' (· ≠ ·) a).Pairwise (· < ·) := by
  induction l generalizing a with
  | nil => simp
  | cons b l ih =>
    obtain ⟨ha, hl⟩ := List.pairwise_cons.mp h
    by_cases hab : a = b
    · subst hab
      rw [List.destutter'_cons_neg l (not_not.mpr rfl)]
      exact ih hl
    · rw [List.destutter'_cons_pos l hab]
      refine List.pairwise_cons.mpr ⟨fun x hx => ?_, ih hl⟩
      have hlt : a < b := lt_of_le_of_ne (ha b List.mem_cons_self) hab
      rcases mem_destutter'_ne.mp hx with rfl | hx
      · exact hlt
      · exact hlt.trans_le ((List.pairwise_cons.mp hl).1 x hx)

theorem distinctIndices_spec (gathered : List Nat) :
    (distinctIndices gathered).Pairwise (· < ·) ∧
      ∀ i, i ∈ distinctIndices gathered ↔ i ∈ gathered := by
  have hsorted : (gathered.insertionSort (· ≤ ·)).Pairwise (· ≤ ·) :=
    List.pairwise_insertionSort (· ≤ ·) gathered
  have hmem : ∀ i, i ∈ gathered.insertionSort (· ≤ ·) ↔ i ∈ gathered := fun _ =>
    List.mem_insertionSort _
  unfold distinctIndices
  cases hs : gathered.insertionSort (· ≤ ·) with
  | nil =>
    rw [hs] at hmem
    exact ⟨List.Pairwise.nil, hmem⟩
  | cons a l =>
    rw [hs] at hsorted hmem
    rw [List.destutter_cons']
    exact ⟨pairwise_destutter'_ne hsorted, fun i => by
      rw [mem_destutter'_ne, ← List.mem_cons, hmem i]⟩

theorem pick_range (xs : List α) : pick xs (List.range xs.length) = xs := by
  induction xs using List.reverseRecOn with
  | nil => rfl
  | append_singleton xs x ih =>
    have hbefore : pick (xs ++ [x]) (List.range xs.length) = pick xs (List.range xs.length) := by
      refine List.filterMap_congr fun i hi => ?_
      rw [List.getElem?_append_left (List.mem_range.mp hi)]
    rw [List.length_append, List.length_singleton, List.range_succ, pick, List.filterMap_append]
    show pick (xs ++ [x]) (List.range xs.length) ++ _ = _
    rw [hbefore, ih]
    simp

/-- Positions in increasing order pick what passes a test, when they are all there. -/
theorem filter_pick {xs : List α} {indices : List Nat} {p : α → Bool}
    (hsorted : indices.Pairwise (· < ·))
    (hall : ∀ i x, xs[i]? = some x → p x = true → i ∈ indices) :
    (pick xs indices).filter p = xs.filter p := by
  obtain ⟨found, hfound⟩ : ∃ found : Nat → Option α, found = fun i => (xs[i]?).filter p := ⟨_, rfl⟩
  have hpick : ∀ is, (pick xs is).filter p =
      (is.filter fun i => (found i).isSome).filterMap found := by
    intro is
    rw [pick, List.filter_filterMap, List.filterMap_filter, hfound]
    refine List.filterMap_congr fun i _ => ?_
    show (xs[i]?).filter p = if ((xs[i]?).filter p).isSome = true then (xs[i]?).filter p else none
    cases (xs[i]?).filter p with
    | none => rfl
    | some x => rfl
  have hsame : (⟨indices.filter fun i => (found i).isSome, hsorted.filter _⟩ : OrdSet Nat) =
      ⟨(List.range xs.length).filter fun i => (found i).isSome,
        List.pairwise_lt_range.filter _⟩ := by
    refine OrdSet.ext_mem fun i => ?_
    rw [OrdSet.mem_def, OrdSet.mem_def, List.mem_filter, List.mem_filter, List.mem_range]
    refine and_congr_left fun hi => ?_
    rw [hfound, Option.isSome_iff_exists] at hi
    obtain ⟨x, hx⟩ := hi
    obtain ⟨hget, hp⟩ := Option.filter_eq_some_iff.mp hx
    exact ⟨fun _ => (List.getElem?_eq_some_iff.mp hget).1, fun _ => hall i x hget hp⟩
  have hlist : indices.filter (fun i => (found i).isSome) =
      (List.range xs.length).filter fun i => (found i).isSome := congrArg OrdSet.toList hsame
  rw [hpick, hlist, ← hpick, pick_range]

end Collections
