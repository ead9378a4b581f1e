import CapaX.Recovery.Flow
import Mathlib.Data.List.Induction

/-
  The data locations of a discovery (`pointers.rs`, `emucode.rs`): the intervals that were marked as
  data and not as code since. The specification is about the calls that were made: the last one
  that says anything about an address decides.
-/

namespace CapaX.Recovery

open Collections

/-- The part of `Discovery` that the marks change. -/
structure DataStore where
  dataLocations : List (UInt64 × UInt64)
  pointerLocations : OrdMap UInt64 UInt64
  orphanPointers : OrdSet UInt64
  codeBarriers : List (UInt64 × UInt64)

def insertLocation (locations : List (UInt64 × UInt64)) (start : UInt64) (size : Nat) :
    Option (List (UInt64 × UInt64)) :=
  insertInterval locations start (saturatingAdd start size)

namespace DataStore

def empty : DataStore := ⟨[], ∅, ∅, []⟩

def markData (d : DataStore) (start : UInt64) (size : Nat) : Option DataStore := do
  let locations ← insertLocation d.dataLocations start size
  pure { d with
    orphanPointers := d.orphanPointers.erase start
    dataLocations := locations
    pointerLocations := (checkedAdd start size).elim d.pointerLocations fun stop =>
      d.pointerLocations.upsert start fun _ => stop }

def markNoncode (d : DataStore) (start : UInt64) (size : Nat) : Option DataStore := do
  let locations ← insertLocation d.dataLocations start size
  let barriers ← insertLocation d.codeBarriers start size
  pure { d with dataLocations := locations, codeBarriers := barriers }

/-- A pointer recorded at the start is forgotten, and all of it becomes code. -/
def markCode (d : DataStore) (start stop : UInt64) : Option DataStore := do
  let stop := (d.pointerLocations.get? start).elim stop fun old => max stop old
  let locations ← removeInterval d.dataLocations start stop
  pure { d with
    pointerLocations := d.pointerLocations.erase start
    dataLocations := locations }

end DataStore

/-! ## Calls -/

inductive Mark where
  | data (start : UInt64) (size : Nat)
  | noncode (start : UInt64) (size : Nat)
  | code (start stop : UInt64)

def DataStore.mark (d : DataStore) : Mark → Option DataStore
  | .data start size => d.markData start size
  | .noncode start size => d.markNoncode start size
  | .code start stop => d.markCode start stop

/-- A sequence of calls. It has no value when one of them panics. -/
def DataStore.marks (d : DataStore) (calls : List Mark) : Option DataStore := calls.foldlM mark d

namespace Mark

/-- Sizes are positive, code does not end before it starts, and no sum passes `u64::MAX`. -/
def Valid : Mark → Prop
  | data start size => 0 < size ∧ start.toNat + size < 2 ^ 64
  | noncode start size => 0 < size ∧ start.toNat + size < 2 ^ 64
  | code start stop => start ≤ stop

/-- The address becomes data. -/
def Covers (a : UInt64) : Mark → Prop
  | data start size => start.toNat ≤ a.toNat ∧ a.toNat < start.toNat + size
  | noncode start size => start.toNat ≤ a.toNat ∧ a.toNat < start.toNat + size
  | code _ _ => False

/-- The address becomes a barrier. -/
def Bars (a : UInt64) : Mark → Prop
  | noncode start size => start.toNat ≤ a.toNat ∧ a.toNat < start.toNat + size
  | _ => False

/-- The call decides what pointer is recorded at an address. -/
def AtPointer (start : UInt64) : Mark → Prop
  | data s _ => s = start
  | noncode _ _ => False
  | code s _ => s = start

end Mark

/-- The pointer that the latest `mark_data` at exactly `start` recorded, up to `stop`, with no
    `mark_code` there since. -/
def Pending (calls : List Mark) (start stop : UInt64) : Prop :=
  ∃ before size after, calls = before ++ .data start size :: after ∧
    stop.toNat = start.toNat + size ∧ ∀ m ∈ after, ¬ m.AtPointer start

/-- A call removes the address, given the calls before it. -/
def Removes (before : List Mark) (a : UInt64) : Mark → Prop
  | .code start stop => start ≤ a ∧ (a < stop ∨ ∃ old, Pending before start old ∧ a < old)
  | _ => False

/-- Some call made the address data, and no later one removed it. -/
def Covered (calls : List Mark) (a : UInt64) : Prop :=
  ∃ before m after, calls = before ++ m :: after ∧ m.Covers a ∧
    ∀ before' m' after', after = before' ++ m' :: after' →
      ¬ Removes (before ++ m :: before') a m'

/-! ## One more call -/

theorem append_singleton_eq {β : Type} {l before after : List β} {x m : β}
    (h : l ++ [x] = before ++ m :: after) :
    (l = before ∧ x = m ∧ after = []) ∨
      ∃ rest, after = rest ++ [x] ∧ l = before ++ m :: rest := by
  rcases List.eq_nil_or_concat after with rfl | ⟨rest, y, rfl⟩
  · obtain ⟨hl, hx⟩ := List.append_inj' h rfl
    exact Or.inl ⟨hl, List.head_eq_of_cons_eq hx, rfl⟩
  · rw [List.concat_eq_append] at h ⊢
    rw [← List.cons_append, ← List.append_assoc] at h
    obtain ⟨hl, hx⟩ := List.append_inj' h rfl
    obtain rfl := List.head_eq_of_cons_eq hx
    exact Or.inr ⟨rest, rfl, hl⟩

theorem pending_snoc {calls : List Mark} {m : Mark} {start stop : UInt64} :
    Pending (calls ++ [m]) start stop ↔
      (∃ size, m = .data start size ∧ stop.toNat = start.toNat + size) ∨
        (¬ m.AtPointer start ∧ Pending calls start stop) := by
  constructor
  · intro ⟨before, size, after, heq, hstop, hafter⟩
    rcases append_singleton_eq heq with ⟨-, rfl, -⟩ | ⟨rest, rfl, rfl⟩
    · exact Or.inl ⟨size, rfl, hstop⟩
    · refine Or.inr ⟨hafter m (by simp), before, size, rest, rfl, hstop, ?_⟩
      intro m' hm'
      exact hafter m' (List.mem_append_left _ hm')
  · rintro (⟨size, rfl, hstop⟩ | ⟨hnot, before, size, after, rfl, hstop, hafter⟩)
    · exact ⟨calls, size, [], rfl, hstop, fun m hm => absurd hm List.not_mem_nil⟩
    · refine ⟨before, size, after ++ [m], by simp, hstop, ?_⟩
      intro m' hm'
      rcases List.mem_append.mp hm' with hm' | hm'
      · exact hafter m' hm'
      · rw [List.mem_singleton.mp hm']
        exact hnot

theorem covered_snoc {calls : List Mark} {m : Mark} {a : UInt64} :
    Covered (calls ++ [m]) a ↔ m.Covers a ∨ (Covered calls a ∧ ¬ Removes calls a m) := by
  constructor
  · intro ⟨before, n, after, heq, hcovers, hkept⟩
    rcases append_singleton_eq heq with ⟨-, rfl, -⟩ | ⟨rest, rfl, rfl⟩
    · exact Or.inl hcovers
    · refine Or.inr ⟨⟨before, n, rest, rfl, hcovers, ?_⟩, hkept rest m [] rfl⟩
      intro before' m' after' hrest
      exact hkept before' m' (after' ++ [m]) (by rw [hrest]; simp)
  · rintro (hcovers | ⟨⟨before, n, after, rfl, hcovers, hkept⟩, hnot⟩)
    · refine ⟨calls, m, [], rfl, hcovers, ?_⟩
      intro before' m' after' hnil
      exact absurd hnil (by simp)
    · refine ⟨before, n, after ++ [m], by simp, hcovers, ?_⟩
      intro before' m' after' hafter
      rcases append_singleton_eq hafter with ⟨rfl, rfl, -⟩ | ⟨rest, -, rfl⟩
      · exact hnot
      · exact hkept before' m' rest rfl

/-! ## The operations -/

theorem saturatingAdd_eq {start : UInt64} {size : Nat} (h : start.toNat + size < 2 ^ 64) :
    checkedAdd start size = some (saturatingAdd start size) ∧
      (saturatingAdd start size).toNat = start.toNat + size := by
  have hadd : checkedAdd start size = some (UInt64.ofNat (start.toNat + size)) := if_pos h
  rw [saturatingAdd, hadd]
  exact ⟨rfl, Nat.mod_eq_of_lt h⟩

theorem insertLocation_spec {locations : List (UInt64 × UInt64)} (h : Separated locations)
    {start : UInt64} {size : Nat} (hsize : 0 < size) (hsum : start.toNat + size < 2 ^ 64) :
    ∃ locations', insertLocation locations start size = some locations' ∧ Separated locations' ∧
      ∀ a, Within locations' a ↔
        Within locations a ∨ (start.toNat ≤ a.toNat ∧ a.toNat < start.toNat + size) := by
  obtain ⟨-, hstop⟩ := saturatingAdd_eq hsum
  have hlt : start < saturatingAdd start size := by
    rw [UInt64.lt_iff_toNat_lt]
    omega
  obtain ⟨locations', hins, hsep, hin⟩ := insertInterval_spec h hlt
  refine ⟨locations', hins, hsep, fun a => ?_⟩
  rw [hin a, UInt64.le_iff_toNat_le, UInt64.lt_iff_toNat_lt, hstop]

/-- What holds of a discovery after a sequence of calls. -/
structure Marked (calls : List Mark) (d : DataStore) : Prop where
  separated : Separated d.dataLocations
  within : ∀ a, Within d.dataLocations a ↔ Covered calls a
  pointers : ∀ start stop, d.pointerLocations.get? start = some stop ↔ Pending calls start stop
  barriers_separated : Separated d.codeBarriers
  barriers : ∀ a, Within d.codeBarriers a ↔ ∃ m ∈ calls, m.Bars a

theorem marked_empty : Marked [] .empty where
  separated := separated_nil
  within a := by
    refine ⟨fun h => absurd h (not_within_nil a), ?_⟩
    intro ⟨before, m, after, heq, _⟩
    exact absurd heq (by simp)
  pointers start stop := by
    refine ⟨fun h => absurd h (by simp [DataStore.empty]), ?_⟩
    intro ⟨before, size, after, heq, _⟩
    exact absurd heq (by simp)
  barriers_separated := separated_nil
  barriers a := by
    refine ⟨fun h => absurd h (not_within_nil a), ?_⟩
    intro ⟨m, hm, _⟩
    exact absurd hm List.not_mem_nil

theorem bars_snoc {calls : List Mark} {m : Mark} {a : UInt64} :
    (∃ n ∈ calls ++ [m], n.Bars a) ↔ (∃ n ∈ calls, n.Bars a) ∨ m.Bars a := by
  simp [List.mem_append, or_and_right, exists_or]

theorem Marked.data {calls : List Mark} {d : DataStore} (h : Marked calls d) {start : UInt64}
    {size : Nat} (hvalid : (Mark.data start size).Valid) :
    ∃ d', d.markData start size = some d' ∧ Marked (calls ++ [.data start size]) d' := by
  obtain ⟨locations, hins, hsep, hin⟩ := insertLocation_spec h.separated hvalid.1 hvalid.2
  obtain ⟨hadd, hstop⟩ := saturatingAdd_eq hvalid.2
  have hmark : d.markData start size = some { d with
      orphanPointers := d.orphanPointers.erase start
      dataLocations := locations
      pointerLocations := (checkedAdd start size).elim d.pointerLocations fun stop =>
        d.pointerLocations.upsert start fun _ => stop } := by
    rw [DataStore.markData, hins]
    rfl
  refine ⟨_, hmark, hsep, ?_, ?_, h.barriers_separated, ?_⟩
  · intro a
    rw [covered_snoc, hin a, h.within a]
    simp only [Removes, not_false_eq_true, and_true]
    exact Or.comm
  · intro start' stop'
    rw [pending_snoc, hadd, Option.elim_some, OrdMap.get?_upsert, ← h.pointers]
    by_cases heq : start' = start
    · subst heq
      simp only [if_true, Mark.AtPointer, not_true_eq_false, false_and, or_false,
        Option.some.injEq, Mark.data.injEq, true_and, exists_eq_left']
      rw [← hstop, UInt64.toNat_inj]
      exact eq_comm
    · have hne : ¬ start = start' := fun he => heq he.symm
      simp [heq, hne, Mark.AtPointer]
  · intro a
    rw [bars_snoc, ← h.barriers a]
    simp [Mark.Bars]

theorem Marked.noncode {calls : List Mark} {d : DataStore} (h : Marked calls d) {start : UInt64}
    {size : Nat} (hvalid : (Mark.noncode start size).Valid) :
    ∃ d', d.markNoncode start size = some d' ∧ Marked (calls ++ [.noncode start size]) d' := by
  obtain ⟨locations, hins, hsep, hin⟩ := insertLocation_spec h.separated hvalid.1 hvalid.2
  obtain ⟨barriers, hbar, hbsep, hbin⟩ :=
    insertLocation_spec h.barriers_separated hvalid.1 hvalid.2
  have hmark : d.markNoncode start size = some { d with
      dataLocations := locations
      codeBarriers := barriers } := by
    rw [DataStore.markNoncode, hins, hbar]
    rfl
  refine ⟨_, hmark, hsep, ?_, ?_, hbsep, ?_⟩
  · intro a
    rw [covered_snoc, hin a, h.within a]
    simp only [Removes, not_false_eq_true, and_true]
    exact Or.comm
  · intro start' stop'
    rw [pending_snoc, h.pointers]
    simp [Mark.AtPointer]
  · intro a
    rw [bars_snoc, hbin a, h.barriers a]
    rfl

theorem Marked.code {calls : List Mark} {d : DataStore} (h : Marked calls d)
    {start stop : UInt64} (hvalid : (Mark.code start stop).Valid) :
    ∃ d', d.markCode start stop = some d' ∧ Marked (calls ++ [.code start stop]) d' := by
  obtain ⟨stop', hstop'⟩ : ∃ stop', stop' = (d.pointerLocations.get? start).elim stop
    fun old => max stop old := ⟨_, rfl⟩
  have hle : start ≤ stop' := by
    rw [hstop']
    cases d.pointerLocations.get? start with
    | none => exact hvalid
    | some old => exact le_trans hvalid (le_max_left _ _)
  have hremoves : ∀ a, Removes calls a (.code start stop) ↔ start ≤ a ∧ a < stop' := by
    intro a
    have hpending : (∃ old, Pending calls start old ∧ a < old) ↔
        ∃ old, d.pointerLocations.get? start = some old ∧ a < old := by
      simp only [h.pointers]
    rw [Removes, hpending, hstop']
    cases d.pointerLocations.get? start with
    | none => simp
    | some old => simp
  obtain ⟨locations, hrem, hsep, hin⟩ := removeInterval_spec h.separated hle
  have hmark : d.markCode start stop = some { d with
      pointerLocations := d.pointerLocations.erase start
      dataLocations := locations } := by
    simp only [DataStore.markCode, ← hstop', hrem]
    rfl
  refine ⟨_, hmark, hsep, ?_, ?_, h.barriers_separated, ?_⟩
  · intro a
    rw [covered_snoc, hin a, h.within a, hremoves a]
    simp [Mark.Covers]
  · intro start' old
    rw [pending_snoc, OrdMap.get?_erase, ← h.pointers]
    by_cases heq : start' = start
    · subst heq
      simp [Mark.AtPointer]
    · have hne : ¬ start = start' := fun he => heq he.symm
      simp [heq, hne, Mark.AtPointer]
  · intro a
    rw [bars_snoc, ← h.barriers a]
    simp [Mark.Bars]

/-! ## Runs -/

theorem Marked.mark {calls : List Mark} {d : DataStore} (h : Marked calls d) {m : Mark}
    (hvalid : m.Valid) : ∃ d', d.mark m = some d' ∧ Marked (calls ++ [m]) d' := by
  cases m with
  | data start size => exact h.data hvalid
  | noncode start size => exact h.noncode hvalid
  | code start stop => exact h.code hvalid

theorem marked_marks (calls : List Mark) (hvalid : ∀ m ∈ calls, m.Valid) :
    ∃ d, DataStore.empty.marks calls = some d ∧ Marked calls d := by
  induction calls using List.reverseRecOn with
  | nil => exact ⟨_, rfl, marked_empty⟩
  | append_singleton calls m ih =>
    obtain ⟨d, hd, hmarked⟩ := ih fun n hn => hvalid n (List.mem_append_left _ hn)
    obtain ⟨d', hd', hmarked'⟩ := hmarked.mark (hvalid m (by simp))
    refine ⟨d', ?_, hmarked'⟩
    rw [DataStore.marks] at hd ⊢
    rw [List.foldlM_append, hd]
    show List.foldlM DataStore.mark d [m] = some d'
    rw [List.foldlM_cons, hd']
    rfl

/-- No sequence of calls panics. It leaves the data locations in order, and `in_data` answers for
    each address what the calls say about it; so do the barriers. -/
theorem marks_spec (calls : List Mark) (hvalid : ∀ m ∈ calls, m.Valid) :
    ∃ d, DataStore.empty.marks calls = some d ∧ Separated d.dataLocations ∧
      (∀ a, inData d.dataLocations a = true ↔ Covered calls a) ∧
      ∀ a, inData d.codeBarriers a = true ↔ ∃ m ∈ calls, m.Bars a := by
  obtain ⟨d, hd, h⟩ := marked_marks calls hvalid
  refine ⟨d, hd, h.separated, fun a => ?_, fun a => ?_⟩
  · rw [inData, h.separated.containsPoint_iff, h.within a]
  · rw [inData, h.barriers_separated.containsPoint_iff, h.barriers a]

/-- A table of two pointers, then an instruction inside the second one. -/
def splitMarks : List Mark := [.data 0x10 8, .data 0x18 8, .noncode 0x30 4, .code 0x1a 0x1c]

theorem marks_spec_splitMarks :
    ∃ d, DataStore.empty.marks splitMarks = some d ∧ Separated d.dataLocations ∧
      (∀ a, inData d.dataLocations a = true ↔ Covered splitMarks a) ∧
      ∀ a, inData d.codeBarriers a = true ↔ ∃ m ∈ splitMarks, m.Bars a :=
  marks_spec splitMarks (by
    intro m hm
    simp only [splitMarks, List.mem_cons, List.not_mem_nil, or_false] at hm
    rcases hm with rfl | rfl | rfl | rfl
    · exact ⟨by decide, by decide⟩
    · exact ⟨by decide, by decide⟩
    · exact ⟨by decide, by decide⟩
    · exact (by decide : (0x1a : UInt64) ≤ 0x1c))

example : (DataStore.empty.marks splitMarks).map (·.dataLocations) =
    some [(0x10, 0x1a), (0x1c, 0x20), (0x30, 0x34)] := by decide +kernel

end CapaX.Recovery
