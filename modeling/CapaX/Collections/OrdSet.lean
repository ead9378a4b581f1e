import Mathlib.Order.Lattice
import Mathlib.Order.Defs.LinearOrder
import Mathlib.Data.List.Basic
import Mathlib.Data.List.Nodup
import Mathlib.Data.List.Perm.Basic

/-
  Finite ordered sets as strictly increasing lists, the sets a `BTreeSet` holds. The list is
  the iteration order, so a set is its list: two sets with the same members are equal
  (`OrdSet.ext_mem`). Operations: `insert`, `insertAll`, `union`, `erase`. Each one is
  determined by its membership lemma, which is what every proof about sets uses.
-/

namespace Collections

/-- A finite set, kept as the strictly increasing list of its members. -/
structure OrdSet (α : Type) [LinearOrder α] where
  toList : List α
  sorted : toList.Pairwise (· < ·)

namespace OrdSet

variable {α : Type} [LinearOrder α]

instance : Membership α (OrdSet α) := ⟨fun s a => a ∈ s.toList⟩

theorem mem_def {s : OrdSet α} {a : α} : a ∈ s ↔ a ∈ s.toList := Iff.rfl

instance (s : OrdSet α) (a : α) : Decidable (a ∈ s) :=
  inferInstanceAs (Decidable (a ∈ s.toList))

theorem nodup (s : OrdSet α) : s.toList.Nodup := s.sorted.imp fun h => ne_of_lt h

/-- A set is determined by its members: the increasing enumeration is unique. -/
theorem ext_mem {s t : OrdSet α} (h : ∀ a, a ∈ s ↔ a ∈ t) : s = t := by
  have hp : s.toList.Perm t.toList := (List.perm_ext_iff_of_nodup s.nodup t.nodup).mpr h
  have hl : s.toList = t.toList :=
    hp.eq_of_pairwise (fun a b _ _ h1 h2 => absurd (h1.trans h2) (lt_irrefl a)) s.sorted t.sorted
  cases s; cases t; simp_all

instance : DecidableEq (OrdSet α) := fun s t =>
  decidable_of_iff (s.toList = t.toList) ⟨fun h => by cases s; cases t; simp_all, congrArg _⟩

/-- The number of members. -/
def card (s : OrdSet α) : Nat := s.toList.length

def empty : OrdSet α := ⟨[], List.Pairwise.nil⟩

instance : EmptyCollection (OrdSet α) := ⟨empty⟩

instance : Inhabited (OrdSet α) := ⟨empty⟩

@[simp] theorem not_mem_empty (a : α) : a ∉ (∅ : OrdSet α) := List.not_mem_nil

def singleton (a : α) : OrdSet α := ⟨[a], List.pairwise_singleton _ a⟩

@[simp] theorem mem_singleton {a b : α} : a ∈ singleton b ↔ a = b := List.mem_singleton

/-! ## Insertion -/

/-- Put `a` at its place in an increasing list; a list that has it already is unchanged. -/
def insertList (a : α) : List α → List α
  | [] => [a]
  | b :: l => if a < b then a :: b :: l else if a = b then b :: l else b :: insertList a l

theorem mem_insertList {a x : α} {l : List α} : x ∈ insertList a l ↔ x = a ∨ x ∈ l := by
  induction l with
  | nil => simp [insertList]
  | cons b l ih =>
    unfold insertList
    split
    · simp
    · split
      · next h => subst h; simp
      · rw [List.mem_cons, ih, List.mem_cons]
        tauto

theorem insertList_sorted {a : α} {l : List α} (h : l.Pairwise (· < ·)) :
    (insertList a l).Pairwise (· < ·) := by
  induction l with
  | nil => exact List.pairwise_singleton _ a
  | cons b l ih =>
    obtain ⟨hb, hl⟩ := List.pairwise_cons.mp h
    unfold insertList
    split
    · next hab =>
      refine List.pairwise_cons.mpr ⟨fun x hx => ?_, h⟩
      rcases List.mem_cons.mp hx with rfl | hx
      · exact hab
      · exact hab.trans (hb x hx)
    · split
      · exact h
      · next hab hne =>
        refine List.pairwise_cons.mpr ⟨fun x hx => ?_, ih hl⟩
        rcases mem_insertList.mp hx with rfl | hx
        · exact lt_of_le_of_ne (not_lt.mp hab) (Ne.symm hne)
        · exact hb x hx

def insert (s : OrdSet α) (a : α) : OrdSet α := ⟨insertList a s.toList, insertList_sorted s.sorted⟩

@[simp] theorem mem_insert {s : OrdSet α} {a x : α} : x ∈ s.insert a ↔ x = a ∨ x ∈ s :=
  mem_insertList

theorem length_insertList {a : α} {l : List α} (h : a ∉ l) :
    (insertList a l).length = l.length + 1 := by
  induction l with
  | nil => rfl
  | cons b l ih =>
    rw [List.mem_cons, not_or] at h
    obtain ⟨hne, hl⟩ := h
    unfold insertList
    split
    · rfl
    · rw [List.length_cons, ih hl, List.length_cons]

theorem card_insert {s : OrdSet α} {a : α} (h : a ∉ s) : (s.insert a).card = s.card + 1 :=
  length_insertList h

/-- Insert the members of a list, front to back. -/
def insertAll (s : OrdSet α) (l : List α) : OrdSet α := l.foldl insert s

@[simp] theorem mem_insertAll {s : OrdSet α} {l : List α} {x : α} :
    x ∈ s.insertAll l ↔ x ∈ s ∨ x ∈ l := by
  induction l generalizing s with
  | nil => simp [insertAll]
  | cons a l ih =>
    have h : s.insertAll (a :: l) = (s.insert a).insertAll l := rfl
    rw [h, ih, mem_insert, List.mem_cons]
    tauto

def union (s t : OrdSet α) : OrdSet α := s.insertAll t.toList

instance : Union (OrdSet α) := ⟨union⟩

@[simp] theorem mem_union {s t : OrdSet α} {x : α} : x ∈ s ∪ t ↔ x ∈ s ∨ x ∈ t := mem_insertAll

def ofList (l : List α) : OrdSet α := insertAll ∅ l

@[simp] theorem mem_ofList {l : List α} {x : α} : x ∈ ofList l ↔ x ∈ l := by simp [ofList]

/-- A fold in which every item adds its own members. -/
theorem mem_foldl {β : Type} {f : OrdSet α → β → OrdSet α} {P : β → Prop} {x : α} {l : List β}
    (h : ∀ b ∈ l, ∀ s, x ∈ f s b ↔ x ∈ s ∨ P b) (s : OrdSet α) :
    x ∈ l.foldl f s ↔ x ∈ s ∨ ∃ b ∈ l, P b := by
  induction l generalizing s with
  | nil => simp
  | cons b l ih =>
    rw [List.foldl_cons, ih fun c hc => h c (List.mem_cons_of_mem _ hc), h b List.mem_cons_self,
      List.exists_mem_cons_iff, or_assoc]

theorem empty_union (s : OrdSet α) : ∅ ∪ s = s := ext_mem fun a => by simp

theorem union_assoc (s t u : OrdSet α) : s ∪ t ∪ u = s ∪ (t ∪ u) :=
  ext_mem fun a => by simp [or_assoc]

theorem union_self (s : OrdSet α) : s ∪ s = s := ext_mem fun a => by simp

/-! ## Deletion -/

def erase (s : OrdSet α) (a : α) : OrdSet α :=
  ⟨s.toList.filter (fun x => decide (x ≠ a)), s.sorted.filter _⟩

@[simp] theorem mem_erase {s : OrdSet α} {a x : α} : x ∈ s.erase a ↔ x ∈ s ∧ x ≠ a := by
  simp [erase, mem_def]

/-- Delete every member of a list. -/
def eraseAll (s : OrdSet α) (l : List α) : OrdSet α := l.foldl erase s

@[simp] theorem mem_eraseAll {s : OrdSet α} {l : List α} {x : α} :
    x ∈ s.eraseAll l ↔ x ∈ s ∧ x ∉ l := by
  induction l generalizing s with
  | nil => simp [eraseAll]
  | cons a l ih =>
    have h : s.eraseAll (a :: l) = (s.erase a).eraseAll l := rfl
    rw [h, ih, mem_erase, List.mem_cons]
    tauto

def isEmpty (s : OrdSet α) : Bool := s.toList.isEmpty

theorem isEmpty_iff {s : OrdSet α} : s.isEmpty = true ↔ s = ∅ := by
  constructor
  · intro h
    refine ext_mem fun a => ?_
    have hnil : s.toList = [] := List.isEmpty_iff.mp h
    exact iff_of_false (by rw [mem_def, hnil]; exact List.not_mem_nil) (not_mem_empty a)
  · rintro rfl; rfl

/-! ## The least member -/

/-- Split off the least member, as `pop_first` does. -/
def popFirst (s : OrdSet α) : Option (α × OrdSet α) :=
  match s with
  | ⟨[], _⟩ => none
  | ⟨a :: l, h⟩ => some (a, ⟨l, (List.pairwise_cons.mp h).2⟩)

theorem popFirst_none {s : OrdSet α} (h : s.popFirst = none) : s = ∅ := by
  obtain ⟨l, hl⟩ := s
  cases l with
  | nil => rfl
  | cons a l => simp [popFirst] at h

/-- What is split off is the least member, and the rest is everything else. -/
theorem popFirst_some {s t : OrdSet α} {a : α} (h : s.popFirst = some (a, t)) :
    (∀ x, x ∈ s ↔ x = a ∨ x ∈ t) ∧ ∀ x ∈ t, a < x := by
  obtain ⟨l, hl⟩ := s
  cases l with
  | nil => simp [popFirst] at h
  | cons b l =>
    simp only [popFirst, Option.some.injEq, Prod.mk.injEq] at h
    obtain ⟨rfl, rfl⟩ := h
    exact ⟨fun x => List.mem_cons, (List.pairwise_cons.mp hl).1⟩

end OrdSet

end Collections
