import Mathlib.Order.Basic
import Mathlib.Order.MinMax
import Mathlib.Data.List.Basic
import Mathlib.Tactic.Order

/-
  Sets kept as lists of half-open intervals, disjoint and in order (`Separated`), over any linear
  order. Places are found by binary search (`partitionPoint`), which is only meaningful on a list
  that its predicate splits. Every operation has one lemma for the invariant and one for the set.
-/

namespace Collections

/-! ## Binary search -/

section

variable {α : Type} (p : α → Bool) (l : List α)

/-- Halve the places from `base` on until one is left. -/
def bisect : Nat → Nat → Nat → Nat
  | 0, base, _ => base
  | fuel + 1, base, size =>
    if 1 < size then
      let half := size / 2
      let mid := base + half
      bisect fuel (if l[mid]?.any p then mid else base) (size - half)
    else base

/-- The first place at which the predicate fails, if it fails from there on. -/
def partitionPoint : Nat :=
  if l.length = 0 then 0
  else
    let base := bisect p l l.length 0 l.length
    if l[base]?.any p then base + 1 else base

variable {p l}

/-- The search keeps the split between `base` and `base + size`. -/
theorem bisect_spec {k : Nat} (hsplit : ∀ i, l[i]?.any p = true ↔ i < k) :
    ∀ fuel base size, size ≤ fuel + 1 → 0 < size → (base = 0 ∨ base < k) → k ≤ base + size →
      (bisect p l fuel base size = 0 ∨ bisect p l fuel base size < k) ∧
        k ≤ bisect p l fuel base size + 1 := by
  intro fuel
  induction fuel with
  | zero =>
    intro base size hfuel hpos hlow hhigh
    exact ⟨hlow, by rw [bisect]; omega⟩
  | succ fuel ih =>
    intro base size hfuel hpos hlow hhigh
    rw [bisect]
    by_cases hsize : 1 < size
    · rw [if_pos hsize]
      dsimp only
      by_cases hmid : l[base + size / 2]?.any p = true
      · rw [if_pos hmid]
        have := (hsplit _).mp hmid
        exact ih _ _ (by omega) (by omega) (by omega) (by omega)
      · rw [if_neg hmid]
        have := mt (hsplit _).mpr hmid
        exact ih _ _ (by omega) (by omega) hlow (by omega)
    · rw [if_neg hsize]
      exact ⟨hlow, by omega⟩

theorem partitionPoint_eq {k : Nat} (hk : k ≤ l.length)
    (hsplit : ∀ i, l[i]?.any p = true ↔ i < k) : partitionPoint p l = k := by
  unfold partitionPoint
  by_cases hempty : l.length = 0
  · rw [if_pos hempty]
    omega
  · rw [if_neg hempty]
    obtain ⟨hlow, hhigh⟩ :=
      bisect_spec hsplit l.length 0 l.length (by omega) (by omega) (Or.inl rfl) (by omega)
    dsimp only
    by_cases hat : l[bisect p l l.length 0 l.length]?.any p = true
    · rw [if_pos hat]
      have := (hsplit _).mp hat
      omega
    · rw [if_neg hat]
      have := mt (hsplit _).mpr hat
      omega

/-- On a list along which the predicate only ever goes from true to false, the point is behind the
    elements before the first that fails. -/
theorem partitionPoint_eq_takeWhile (h : l.Pairwise fun x y => p y = true → p x = true) :
    partitionPoint p l = (l.takeWhile p).length ∧
      ∀ i, l[i]?.any p = true ↔ i < (l.takeWhile p).length := by
  have hle : (l.takeWhile p).length ≤ l.length := (List.takeWhile_sublist p).length_le
  have hsplit : ∀ i, l[i]?.any p = true ↔ i < (l.takeWhile p).length := by
    induction l with
    | nil => simp
    | cons a l ih =>
      obtain ⟨ha, hl⟩ := List.pairwise_cons.mp h
      have htail := ih hl (List.takeWhile_sublist p).length_le
      intro i
      cases hpa : p a with
      | false =>
        rw [List.takeWhile_cons, hpa]
        cases i with
        | zero => simp [hpa]
        | succ i =>
          simp only [List.getElem?_cons_succ, Bool.false_eq_true, if_false, List.length_nil,
            Nat.not_lt_zero, iff_false]
          intro hany
          cases hb : l[i]? with
          | none => simp [hb] at hany
          | some b =>
            rw [hb] at hany
            have hpa' := ha b (List.mem_of_getElem? hb) hany
            rw [hpa] at hpa'
            cases hpa'
      | true =>
        rw [List.takeWhile_cons, hpa]
        cases i with
        | zero => simp [hpa]
        | succ i => simpa using htail i
  exact ⟨partitionPoint_eq hle hsplit, hsplit⟩

/-- The predicate holds before the point and fails from there on. -/
theorem partitionPoint_spec (h : l.Pairwise fun x y => p y = true → p x = true) :
    partitionPoint p l ≤ l.length ∧
      ∀ i (hi : i < l.length), p l[i] = true ↔ i < partitionPoint p l := by
  obtain ⟨hpoint, hsplit⟩ := partitionPoint_eq_takeWhile h
  rw [hpoint]
  refine ⟨(List.takeWhile_sublist p).length_le, fun i hi => ?_⟩
  rw [← hsplit i, List.getElem?_eq_getElem hi]
  rfl

/-- `splice`, which panics on a range that is none. -/
def splice (l : List α) (first last : Nat) (new : List α) : Option (List α) :=
  if first ≤ last ∧ last ≤ l.length then some (l.take first ++ new ++ l.drop last) else none

theorem splice_eq {first last : Nat} {new : List α} (hle : first ≤ last) (hlast : last ≤ l.length) :
    splice l first last new = some (l.take first ++ new ++ l.drop last) := if_pos ⟨hle, hlast⟩

end

/-! ## Intervals -/

section

variable {α : Type} [LinearOrder α]

/-- Non-empty intervals, disjoint and in order. They may touch. -/
structure Separated (l : List (α × α)) : Prop where
  nonempty : ∀ x ∈ l, x.1 < x.2
  sorted : l.Pairwise fun x y => x.2 ≤ y.1

/-- A point of the set. -/
def Within (l : List (α × α)) (a : α) : Prop := ∃ x ∈ l, x.1 ≤ a ∧ a < x.2

/-- The test of a point: the last interval that starts at it or before. -/
def containsPoint (l : List (α × α)) (a : α) : Bool :=
  match partitionPoint (fun x => decide (x.1 ≤ a)) l with
  | 0 => false
  | point + 1 => l[point]?.any fun x => decide (a < x.2)

/-- Add an interval, merged with those it touches. -/
def insertInterval (l : List (α × α)) (start stop : α) : Option (List (α × α)) :=
  let first := partitionPoint (fun x => decide (x.2 < start)) l
  let last := partitionPoint (fun x => decide (x.1 ≤ stop)) l
  let start' := ((l[first]?).filter fun _ => decide (first < last)).elim start fun x => min start x.1
  let stop' := (((if last = 0 then none else l[last - 1]?)).filter fun _ =>
    decide (first < last)).elim stop fun x => max stop x.2
  splice l first last [(start', stop')]

/-- What is left of the first and the last of the intervals that a removal meets. -/
def remnants (l : List (α × α)) (start stop : α) (first last : Nat) : List (α × α) :=
  ((l[first]?).elim [] fun x => if x.1 < start then [(x.1, start)] else []) ++
    (l[last - 1]?).elim [] fun x => if stop < x.2 then [(stop, x.2)] else []

/-- Remove the points of an interval. -/
def removeInterval (l : List (α × α)) (start stop : α) : Option (List (α × α)) :=
  let first := partitionPoint (fun x => decide (x.2 ≤ start)) l
  let last := partitionPoint (fun x => decide (x.1 < stop)) l
  if last ≤ first then some l else splice l first last (remnants l start stop first last)

variable {l : List (α × α)}

theorem separated_nil : Separated ([] : List (α × α)) where
  nonempty _ h := absurd h List.not_mem_nil
  sorted := List.Pairwise.nil

theorem not_within_nil (a : α) : ¬ Within ([] : List (α × α)) a := fun ⟨_, h, _⟩ =>
  absurd h List.not_mem_nil

theorem within_iff {a : α} :
    Within l a ↔ ∃ i, ∃ hi : i < l.length, l[i].1 ≤ a ∧ a < l[i].2 := by
  constructor
  · intro ⟨x, hx, hcovers⟩
    obtain ⟨i, hi, rfl⟩ := List.getElem_of_mem hx
    exact ⟨i, hi, hcovers⟩
  · intro ⟨i, hi, hcovers⟩
    exact ⟨l[i], List.getElem_mem hi, hcovers⟩

namespace Separated

variable (h : Separated l)

include h

theorem lt {i : Nat} (hi : i < l.length) : l[i].1 < l[i].2 := h.nonempty _ (List.getElem_mem hi)

theorem le {i j : Nat} (hi : i < l.length) (hj : j < l.length) (hij : i < j) :
    l[i].2 ≤ l[j].1 := List.pairwise_iff_getElem.mp h.sorted i j hi hj hij

theorem increasing : l.Pairwise fun x y => x.1 < y.1 ∧ x.2 < y.2 := by
  apply h.sorted.imp_of_mem
  intro x y hx hy hxy
  exact ⟨lt_of_lt_of_le (h.nonempty x hx) hxy, lt_of_le_of_lt hxy (h.nonempty y hy)⟩

theorem start_le {i j : Nat} (hi : i < l.length) (hj : j < l.length) (hij : i ≤ j) :
    l[i].1 ≤ l[j].1 := by
  rcases Nat.lt_or_eq_of_le hij with hlt | rfl
  · exact le_trans (le_of_lt (h.lt hi)) (h.le hi hj hlt)
  · exact le_refl _

theorem stop_le {i j : Nat} (hi : i < l.length) (hj : j < l.length) (hij : i ≤ j) :
    l[i].2 ≤ l[j].2 := by
  rcases Nat.lt_or_eq_of_le hij with hlt | rfl
  · exact le_trans (h.le hi hj hlt) (le_of_lt (h.lt hj))
  · exact le_refl _

/-- A bound on the starts is a place of the list. -/
theorem startPoint (p : α → Bool) (hp : ∀ a b, a < b → p b = true → p a = true) :
    partitionPoint (fun x : α × α => p x.1) l ≤ l.length ∧
      ∀ i (hi : i < l.length), p l[i].1 = true ↔ i < partitionPoint (fun x => p x.1) l :=
  partitionPoint_spec (h.increasing.imp fun hxy => hp _ _ hxy.1)

theorem stopPoint (p : α → Bool) (hp : ∀ a b, a < b → p b = true → p a = true) :
    partitionPoint (fun x : α × α => p x.2) l ≤ l.length ∧
      ∀ i (hi : i < l.length), p l[i].2 = true ↔ i < partitionPoint (fun x => p x.2) l :=
  partitionPoint_spec (h.increasing.imp fun hxy => hp _ _ hxy.2)

theorem containsPoint_iff (a : α) : containsPoint l a = true ↔ Within l a := by
  obtain ⟨hle, hpoint⟩ := h.startPoint (fun b => decide (b ≤ a)) (by
    intro b c hbc hc
    rw [decide_eq_true_eq] at hc ⊢
    exact le_trans (le_of_lt hbc) hc)
  rw [within_iff, containsPoint]
  split
  · rename_i hzero
    rw [hzero] at hpoint
    simp only [Bool.false_eq_true, false_iff]
    intro ⟨i, hi, hstart, _⟩
    exact absurd ((hpoint i hi).mp (decide_eq_true hstart)) (Nat.not_lt_zero i)
  · rename_i point hsucc
    rw [hsucc] at hle hpoint
    have hlt : point < l.length := by omega
    rw [List.getElem?_eq_getElem hlt]
    simp only [Option.any_some, decide_eq_true_eq]
    constructor
    · intro hstop
      have hstart := (hpoint point hlt).mpr (Nat.lt_succ_self point)
      exact ⟨point, hlt, decide_eq_true_eq.mp hstart, hstop⟩
    · intro ⟨i, hi, hstart, hstop⟩
      have hip : i ≤ point := Nat.lt_succ_iff.mp ((hpoint i hi).mp (decide_eq_true hstart))
      exact lt_of_lt_of_le hstop (h.stop_le hi hlt hip)

/-- A run of the list may be replaced by intervals that keep to its place. -/
theorem replace {first last : Nat} {new : List (α × α)} (hnew : Separated new)
    (hle : first ≤ last)
    (hleft : ∀ i (hi : i < l.length), i < first → ∀ y ∈ new, l[i].2 ≤ y.1)
    (hright : ∀ i (hi : i < l.length), last ≤ i → ∀ y ∈ new, y.2 ≤ l[i].1) :
    Separated (l.take first ++ new ++ l.drop last) := by
  have htake : ∀ x ∈ l.take first, ∃ i, ∃ hi : i < l.length, i < first ∧ l[i] = x := by
    intro x hx
    obtain ⟨i, hi, rfl⟩ := List.mem_take_iff_getElem.mp hx
    exact ⟨i, by omega, by omega, rfl⟩
  have hdrop : ∀ x ∈ l.drop last, ∃ i, ∃ hi : i < l.length, last ≤ i ∧ l[i] = x := by
    intro x hx
    obtain ⟨i, hi, rfl⟩ := List.mem_drop_iff_getElem.mp hx
    exact ⟨last + i, by omega, by omega, rfl⟩
  constructor
  · intro x hx
    rcases List.mem_append.mp hx with hx | hx
    · rcases List.mem_append.mp hx with hx | hx
      · exact h.nonempty x (List.mem_of_mem_take hx)
      · exact hnew.nonempty x hx
    · exact h.nonempty x (List.mem_of_mem_drop hx)
  · rw [List.pairwise_append, List.pairwise_append]
    refine ⟨⟨h.sorted.take, hnew.sorted, ?_⟩, h.sorted.drop, ?_⟩
    · intro x hx y hy
      obtain ⟨i, hi, hlt, rfl⟩ := htake x hx
      exact hleft i hi hlt y hy
    · intro x hx z hz
      obtain ⟨j, hj, hge, rfl⟩ := hdrop z hz
      rcases List.mem_append.mp hx with hx | hx
      · obtain ⟨i, hi, hlt, rfl⟩ := htake x hx
        exact h.le hi hj (by omega)
      · exact hright j hj hge x hx

end Separated

theorem within_replace {first last : Nat} {new : List (α × α)} {a : α} :
    Within (l.take first ++ new ++ l.drop last) a ↔ Within new a ∨
      ∃ i, ∃ hi : i < l.length, (i < first ∨ last ≤ i) ∧ l[i].1 ≤ a ∧ a < l[i].2 := by
  constructor
  · intro ⟨x, hx, hcovers⟩
    rcases List.mem_append.mp hx with hx | hx
    · rcases List.mem_append.mp hx with hx | hx
      · obtain ⟨i, hi, rfl⟩ := List.mem_take_iff_getElem.mp hx
        exact Or.inr ⟨i, by omega, Or.inl (by omega), hcovers⟩
      · exact Or.inl ⟨x, hx, hcovers⟩
    · obtain ⟨i, hi, rfl⟩ := List.mem_drop_iff_getElem.mp hx
      exact Or.inr ⟨last + i, by omega, Or.inr (by omega), hcovers⟩
  · rintro (⟨x, hx, hcovers⟩ | ⟨i, hi, hplace, hcovers⟩)
    · exact ⟨x, by simp [hx], hcovers⟩
    · refine ⟨l[i], ?_, hcovers⟩
      rcases hplace with hlt | hge
      · have : l[i] ∈ l.take first := List.mem_take_iff_getElem.mpr ⟨i, by omega, rfl⟩
        simp [this]
      · have : l[i] ∈ l.drop last :=
          List.mem_drop_iff_getElem.mpr ⟨i - last, by omega, by simp [Nat.add_sub_cancel' hge]⟩
        simp [this]

/-! ## Adding -/

/-- The intervals from `first` to before `last` are those that touch the one from `start` to
    `stop`. -/
structure Touching (l : List (α × α)) (start stop : α) (first last : Nat) : Prop where
  ordered : first ≤ last
  length : last ≤ l.length
  before : ∀ i (hi : i < l.length), l[i].2 < start ↔ i < first
  upto : ∀ i (hi : i < l.length), l[i].1 ≤ stop ↔ i < last

theorem touching (h : Separated l) {start stop : α} (hlt : start < stop) :
    Touching l start stop (partitionPoint (fun x => decide (x.2 < start)) l)
      (partitionPoint (fun x => decide (x.1 ≤ stop)) l) := by
  obtain ⟨hfirst, hbefore⟩ := h.stopPoint (fun b => decide (b < start)) (by
    intro b c hbc hc
    rw [decide_eq_true_eq] at hc ⊢
    exact lt_trans hbc hc)
  obtain ⟨hlast, hupto⟩ := h.startPoint (fun b => decide (b ≤ stop)) (by
    intro b c hbc hc
    rw [decide_eq_true_eq] at hc ⊢
    exact le_trans (le_of_lt hbc) hc)
  simp only [decide_eq_true_eq] at hbefore hupto
  refine ⟨?_, hlast, hbefore, hupto⟩
  by_contra hgt
  have hin : partitionPoint (fun x => decide (x.1 ≤ stop)) l < l.length := by omega
  have hstop := (hbefore _ hin).mpr (by omega)
  have hstart := mt (hupto _ hin).mp (Nat.lt_irrefl _)
  have hnonempty := h.lt hin
  order

/-- A merged interval takes the place of those that touch: it covers them and the new one, and
    nothing else. -/
theorem Touching.merged {start stop lo hi : α} {first last : Nat} (h : Separated l)
    (ht : Touching l start stop first last) (hlt : start < stop) (hlo : lo ≤ start)
    (hhi : stop ≤ hi) (hleft : ∀ i (_ : i < l.length), i < first → l[i].2 ≤ lo)
    (hright : ∀ i (_ : i < l.length), last ≤ i → hi ≤ l[i].1)
    (hinside : ∀ i (_ : i < l.length), first ≤ i → i < last → lo ≤ l[i].1 ∧ l[i].2 ≤ hi)
    (hcovered : ∀ a, lo ≤ a → a < hi → Within l a ∨ (start ≤ a ∧ a < stop)) :
    Separated (l.take first ++ [(lo, hi)] ++ l.drop last) ∧
      ∀ a, Within (l.take first ++ [(lo, hi)] ++ l.drop last) a ↔
        Within l a ∨ (start ≤ a ∧ a < stop) := by
  have hnew : Separated [(lo, hi)] := by
    refine ⟨fun x hx => ?_, List.pairwise_singleton _ _⟩
    rw [List.mem_singleton.mp hx]
    exact lt_of_le_of_lt hlo (lt_of_lt_of_le hlt hhi)
  constructor
  · apply h.replace hnew ht.ordered
    · intro i hi hif y hy
      rw [List.mem_singleton.mp hy]
      exact hleft i hi hif
    · intro i hi hli y hy
      rw [List.mem_singleton.mp hy]
      exact hright i hi hli
  · intro a
    rw [within_replace]
    constructor
    · intro hwithin
      obtain ⟨x, hx, hge, hle⟩ | ⟨i, hi, -, hcovers⟩ := hwithin
      · rw [List.mem_singleton.mp hx] at hge hle
        exact hcovered a hge hle
      · exact Or.inl (within_iff.mpr ⟨i, hi, hcovers⟩)
    · intro hwithin
      obtain hwithin | ⟨hge, hle⟩ := hwithin
      · obtain ⟨i, hi, hge, hle⟩ := within_iff.mp hwithin
        by_cases hplace : i < first ∨ last ≤ i
        · exact Or.inr ⟨i, hi, hplace, hge, hle⟩
        · obtain ⟨hlow, hhigh⟩ := hinside i hi (by omega) (by omega)
          exact Or.inl ⟨_, List.mem_singleton_self _, le_trans hlow hge, lt_of_lt_of_le hle hhigh⟩
      · exact Or.inl ⟨_, List.mem_singleton_self _, le_trans hlo hge, lt_of_lt_of_le hle hhi⟩

theorem insertInterval_spec (h : Separated l) {start stop : α} (hlt : start < stop) :
    ∃ l', insertInterval l start stop = some l' ∧ Separated l' ∧
      ∀ a, Within l' a ↔ Within l a ∨ (start ≤ a ∧ a < stop) := by
  have ht := touching h hlt
  unfold insertInterval
  dsimp only
  generalize partitionPoint (fun x => decide (x.2 < start)) l = first at ht ⊢
  generalize partitionPoint (fun x => decide (x.1 ≤ stop)) l = last at ht ⊢
  have hright : ∀ i (hi : i < l.length), last ≤ i → stop ≤ l[i].1 := by
    intro i hi hli
    have hnot := mt (ht.upto i hi).mp (by omega)
    exact le_of_lt (not_le.mp hnot)
  have hleft : ∀ i (hi : i < l.length), i < first → l[i].2 ≤ start := fun i hi hif =>
    le_of_lt ((ht.before i hi).mpr hif)
  by_cases hnone : first = last
  · -- no interval touches the new one
    refine ⟨_, ?_, ht.merged h hlt (le_refl start) (le_refl stop) hleft hright
      (fun i _ hfi hil => by omega) fun a hge hle => Or.inr ⟨hge, hle⟩⟩
    rw [← splice_eq ht.ordered ht.length]
    simp [hnone]
  · have hflt : first < last := by
      have hordered := ht.ordered
      omega
    have hlength := ht.length
    have hfin : first < l.length := by omega
    have hlin : last - 1 < l.length := by omega
    have hfstop : start ≤ l[first].2 :=
      not_lt.mp (mt (ht.before first hfin).mp (Nat.lt_irrefl first))
    have hlstart : l[last - 1].1 ≤ stop := (ht.upto (last - 1) hlin).mpr (by omega)
    refine ⟨l.take first ++ [(min start l[first].1, max stop l[last - 1].2)] ++ l.drop last, ?_,
      ht.merged h hlt (min_le_left _ _) (le_max_left _ _) ?_ ?_ ?_ ?_⟩
    · rw [← splice_eq ht.ordered ht.length, List.getElem?_eq_getElem hfin, if_neg (by omega),
        List.getElem?_eq_getElem hlin]
      simp only [hflt, decide_true]
      rfl
    · exact fun i hi hif => le_min (hleft i hi hif) (h.le hi hfin hif)
    · exact fun i hi hli => max_le (hright i hi hli) (h.le hlin hi (by omega))
    · intro i hi hfi hil
      exact ⟨le_trans (min_le_right _ _) (h.start_le hfin hi hfi),
        le_trans (h.stop_le hi hlin (by omega)) (le_max_right _ _)⟩
    · intro a hge hle
      by_cases hlow : a < start
      · have hmin : l[first].1 ≤ a := by
          obtain hs | hs := min_le_iff.mp hge
          · order
          · exact hs
        exact Or.inl (within_iff.mpr ⟨first, hfin, hmin, lt_of_lt_of_le hlow hfstop⟩)
      · by_cases hhigh : a < stop
        · exact Or.inr ⟨not_lt.mp hlow, hhigh⟩
        · have hmax : a < l[last - 1].2 := by
            obtain hs | hs := lt_max_iff.mp hle
            · order
            · exact hs
          exact Or.inl (within_iff.mpr ⟨last - 1, hlin, le_trans hlstart (not_lt.mp hhigh), hmax⟩)

/-! ## Removing -/

theorem mem_remnants (start stop : α) {first last : Nat} (hfin : first < l.length)
    (hlin : last - 1 < l.length) (x : α × α) :
    x ∈ remnants l start stop first last ↔
      (l[first].1 < start ∧ x = (l[first].1, start)) ∨
        (stop < l[last - 1].2 ∧ x = (stop, l[last - 1].2)) := by
  rw [remnants, List.getElem?_eq_getElem hfin, List.getElem?_eq_getElem hlin, List.mem_append]
  by_cases hlow : l[first].1 < start
  · by_cases hhigh : stop < l[last - 1].2
    · simp [hlow, hhigh]
    · simp [hlow, hhigh]
  · by_cases hhigh : stop < l[last - 1].2
    · simp [hlow, hhigh]
    · simp [hlow, hhigh]

/-- At most one interval is left, and what is left is as `P` says. -/
theorem remnant_spec {β γ : Type} {p : β → Prop} [DecidablePred p] {f : β → γ} {P : γ → Prop}
    (hf : ∀ x, p x → P (f x)) (R : γ → γ → Prop) (o : Option β) :
    (∀ x ∈ o.elim [] fun x => if p x then [f x] else [], P x) ∧
      (o.elim [] fun x => if p x then [f x] else []).Pairwise R := by
  cases o with
  | none => exact ⟨fun x hx => absurd hx List.not_mem_nil, List.Pairwise.nil⟩
  | some y =>
    rw [Option.elim_some]
    by_cases hy : p y
    · rw [if_pos hy]
      refine ⟨fun x hx => ?_, List.pairwise_singleton R _⟩
      rw [List.mem_singleton.mp hx]
      exact hf y hy
    · rw [if_neg hy]
      exact ⟨fun x hx => absurd hx List.not_mem_nil, List.Pairwise.nil⟩

theorem separated_remnants {start stop : α} (hle : start ≤ stop) (first last : Nat) :
    Separated (remnants l start stop first last) := by
  obtain ⟨hlow, hlows⟩ := remnant_spec (p := fun x => x.1 < start) (f := fun x => (x.1, start))
    (P := fun x => x.1 < start ∧ x.2 = start) (fun _ hx => ⟨hx, rfl⟩) (fun x y => x.2 ≤ y.1)
    l[first]?
  obtain ⟨hhigh, hhighs⟩ := remnant_spec (p := fun x => stop < x.2) (f := fun x => (stop, x.2))
    (P := fun x => stop < x.2 ∧ x.1 = stop) (fun _ hx => ⟨hx, rfl⟩) (fun x y => x.2 ≤ y.1)
    l[last - 1]?
  constructor
  · intro x hx
    obtain hx | hx := List.mem_append.mp hx
    · obtain ⟨hstart, hstop⟩ := hlow x hx
      rw [hstop]
      exact hstart
    · obtain ⟨hstop, hstart⟩ := hhigh x hx
      rw [hstart]
      exact hstop
  · apply List.pairwise_append.mpr
    refine ⟨hlows, hhighs, fun x hx y hy => ?_⟩
    rw [(hlow x hx).2, (hhigh y hy).2]
    exact hle

/-- The intervals from `first` to before `last` are those that a removal meets. -/
structure Met (l : List (α × α)) (start stop : α) (first last : Nat) : Prop where
  length : first ≤ l.length ∧ last ≤ l.length
  before : ∀ i (hi : i < l.length), l[i].2 ≤ start ↔ i < first
  upto : ∀ i (hi : i < l.length), l[i].1 < stop ↔ i < last

theorem met (h : Separated l) (start stop : α) :
    Met l start stop (partitionPoint (fun x => decide (x.2 ≤ start)) l)
      (partitionPoint (fun x => decide (x.1 < stop)) l) := by
  obtain ⟨hfirst, hbefore⟩ := h.stopPoint (fun b => decide (b ≤ start)) (by
    intro b c hbc hc
    rw [decide_eq_true_eq] at hc ⊢
    exact le_trans (le_of_lt hbc) hc)
  obtain ⟨hlast, hupto⟩ := h.startPoint (fun b => decide (b < stop)) (by
    intro b c hbc hc
    rw [decide_eq_true_eq] at hc ⊢
    exact lt_trans hbc hc)
  simp only [decide_eq_true_eq] at hbefore hupto
  exact ⟨⟨hfirst, hlast⟩, hbefore, hupto⟩

/-- What is not met has no point in common with the removed interval. -/
theorem Met.apart {start stop a : α} {first last : Nat} (hm : Met l start stop first last)
    {i : Nat} (hi : i < l.length) (hplace : i < first ∨ last ≤ i)
    (hcovers : l[i].1 ≤ a ∧ a < l[i].2) :
    ¬(start ≤ a ∧ a < stop) := by
  intro ⟨hge, hlt⟩
  obtain ⟨hstart, hstop⟩ := hcovers
  obtain hif | hli := hplace
  · have hbefore := (hm.before i hi).mpr hif
    order
  · have hbehind := mt (hm.upto i hi).mp (by omega)
    order

theorem removeInterval_spec (h : Separated l) {start stop : α} (hle : start ≤ stop) :
    ∃ l', removeInterval l start stop = some l' ∧ Separated l' ∧
      ∀ a, Within l' a ↔ Within l a ∧ ¬ (start ≤ a ∧ a < stop) := by
  have hm := met h start stop
  unfold removeInterval
  dsimp only
  generalize partitionPoint (fun x => decide (x.2 ≤ start)) l = first at hm ⊢
  generalize partitionPoint (fun x => decide (x.1 < stop)) l = last at hm ⊢
  obtain ⟨hfirst, hlast⟩ := hm.length
  by_cases hnone : last ≤ first
  · -- every interval ends before the removed one or starts behind it
    refine ⟨l, if_pos hnone, h, fun a => ⟨fun hw => ⟨hw, ?_⟩, fun hw => hw.1⟩⟩
    obtain ⟨i, hi, hcovers⟩ := within_iff.mp hw
    exact hm.apart hi (by omega) hcovers
  · have hfin : first < l.length := by omega
    have hlin : last - 1 < l.length := by omega
    have hfstop : start < l[first].2 :=
      not_le.mp (mt (hm.before first hfin).mp (Nat.lt_irrefl first))
    have hlstart : l[last - 1].1 < stop := (hm.upto (last - 1) hlin).mpr (by omega)
    have hmem := mem_remnants start stop hfin hlin
    refine ⟨l.take first ++ remnants l start stop first last ++ l.drop last, ?_, ?_, ?_⟩
    · rw [if_neg hnone, splice_eq (by omega) hlast]
    · apply h.replace (separated_remnants hle first last) (by omega)
      · intro i hi hif y hy
        have hstart := (hm.before i hi).mpr hif
        obtain ⟨-, rfl⟩ | ⟨-, rfl⟩ := (hmem y).mp hy
        · exact h.le hi hfin hif
        · exact le_trans hstart hle
      · intro i hi hli y hy
        have hstop := not_lt.mp (mt (hm.upto i hi).mp (by omega))
        obtain ⟨-, rfl⟩ | ⟨-, rfl⟩ := (hmem y).mp hy
        · exact le_trans hle hstop
        · exact h.le hlin hi (by omega)
    · intro a
      rw [within_replace, within_iff (l := l)]
      constructor
      · intro hwithin
        obtain ⟨x, hx, hge, hlt⟩ | ⟨i, hi, hplace, hcovers⟩ := hwithin
        · obtain ⟨hlow, rfl⟩ | ⟨hhigh, rfl⟩ := (hmem x).mp hx
          · refine ⟨⟨first, hfin, hge, lt_trans hlt hfstop⟩, ?_⟩
            exact fun hin => absurd hlt (not_lt.mpr hin.1)
          · refine ⟨⟨last - 1, hlin, le_trans (le_of_lt hlstart) hge, hlt⟩, ?_⟩
            exact fun hin => absurd hin.2 (not_lt.mpr hge)
        · exact ⟨⟨i, hi, hcovers⟩, hm.apart hi hplace hcovers⟩
      · intro ⟨⟨i, hi, hstart, hstop⟩, hout⟩
        by_cases hplace : i < first ∨ last ≤ i
        · exact Or.inr ⟨i, hi, hplace, hstart, hstop⟩
        · have hfi := h.start_le hfin hi (by omega)
          have hil := h.stop_le hi hlin (by omega)
          left
          by_cases hlow : a < start
          · exact ⟨_, (hmem _).mpr (Or.inl ⟨by order, rfl⟩), le_trans hfi hstart, hlow⟩
          · have hhigh : stop ≤ a := not_lt.mp fun hlt => hout ⟨not_lt.mp hlow, hlt⟩
            exact ⟨_, (hmem _).mpr (Or.inr ⟨by order, rfl⟩), hhigh, lt_of_lt_of_le hstop hil⟩

/-! ## Intervals that overlap -/

/-- The ends of the intervals, each raised to the furthest before it. -/
def furthestEnds (furthest : α) : List (α × α) → List (α × α)
  | [] => []
  | x :: l => (x.1, max furthest x.2) :: furthestEnds (max furthest x.2) l

end

end Collections
