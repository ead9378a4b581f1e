import Mathlib.Data.List.Basic
import Mathlib.Data.List.Induction
import Mathlib.Data.List.Perm.Basic

/-
  Maps that keep their keys in the order of first insertion. Keys are compared with `==`, of
  which only symmetry and transitivity are used (`PartialEquivBEq`): a key that is not equal to
  itself is stored and never found again. The invariant `distinct` says that no two stored keys
  are equal, so a lookup finds at most one entry.

  Every operation has one lookup lemma (`get?_upsert`, `get?_mergeWith`, `get?_erase`, ..) and
  one lemma on the key order (`keys_upsert`, ..).
-/

namespace Collections

/-- A map from `κ` to `β` with its entries in insertion order. -/
structure IndexMap (κ β : Type) [BEq κ] where
  entries : List (κ × β)
  distinct : entries.Pairwise fun a b => (a.1 == b.1) = false

namespace IndexMap

variable {κ β : Type} [BEq κ]

def empty : IndexMap κ β := ⟨[], List.Pairwise.nil⟩

instance : EmptyCollection (IndexMap κ β) := ⟨empty⟩

instance : Inhabited (IndexMap κ β) := ⟨empty⟩

/-- The value stored under a key equal to `k`. -/
def get? (m : IndexMap κ β) (k : κ) : Option β :=
  (m.entries.find? fun e => e.1 == k).map (·.2)

def containsKey (m : IndexMap κ β) (k : κ) : Bool := m.entries.any fun e => e.1 == k

def keys (m : IndexMap κ β) : List κ := m.entries.map (·.1)

def len (m : IndexMap κ β) : Nat := m.entries.length

@[simp] theorem get?_empty (k : κ) : (∅ : IndexMap κ β).get? k = none := rfl

@[simp] theorem keys_empty : (∅ : IndexMap κ β).keys = [] := rfl

theorem len_eq (m : IndexMap κ β) : m.len = m.keys.length := by simp [len, keys]

theorem containsKey_eq_isSome (m : IndexMap κ β) (k : κ) :
    m.containsKey k = (m.get? k).isSome := by
  unfold containsKey get?
  induction m.entries with
  | nil => rfl
  | cons e es ih =>
    rw [List.any_cons, List.find?_cons, ih]
    cases h : e.1 == k <;> simp

theorem containsKey_iff {m : IndexMap κ β} {k : κ} :
    m.containsKey k = true ↔ ∃ k' ∈ m.keys, (k' == k) = true := by
  simp [containsKey, keys]

theorem get?_of_mem [PartialEquivBEq κ] {m : IndexMap κ β} {e : κ × β} {k : κ}
    (he : e ∈ m.entries) (hk : (e.1 == k) = true) : m.get? k = some e.2 := by
  obtain ⟨l, hl⟩ := m
  unfold get?
  induction l with
  | nil => cases he
  | cons a l ih =>
    obtain ⟨ha, hl'⟩ := List.pairwise_cons.mp hl
    rcases List.mem_cons.mp he with rfl | he
    · simp [hk]
    · have hak : (a.1 == k) = false := by
        cases h : a.1 == k with
        | false => rfl
        | true => rw [← ha e he]; exact (BEq.trans h (BEq.symm hk)).symm
      rw [List.find?_cons, hak]
      exact ih hl' he

theorem mem_of_get? {m : IndexMap κ β} {k : κ} {b : β} (h : m.get? k = some b) :
    ∃ k', (k', b) ∈ m.entries ∧ (k' == k) = true := by
  unfold get? at h
  obtain ⟨e, he, rfl⟩ := Option.map_eq_some_iff.mp h
  have hk := List.find?_some he
  exact ⟨e.1, List.mem_of_find?_eq_some he, hk⟩

theorem get?_congr [PartialEquivBEq κ] {m : IndexMap κ β} {k k' : κ} (h : (k == k') = true) :
    m.get? k = m.get? k' := by
  unfold get?
  congr 2
  funext e
  exact BEq.congr_right h

/-! ## Update or insert -/

/-- `f` at the entry of key `k`, or a new last entry when there is none. -/
def upsertList (k : κ) (f : Option β → β) : List (κ × β) → List (κ × β)
  | [] => [(k, f none)]
  | e :: es => if e.1 == k then (e.1, f (some e.2)) :: es else e :: upsertList k f es

theorem mem_upsertList_key {k : κ} {f : Option β → β} {l : List (κ × β)} {e : κ × β}
    (h : e ∈ upsertList k f l) : e.1 = k ∨ ∃ e' ∈ l, e'.1 = e.1 := by
  induction l with
  | nil => exact Or.inl (by simp [upsertList] at h; simp [h])
  | cons a l ih =>
    unfold upsertList at h
    split at h
    · rcases List.mem_cons.mp h with rfl | h
      · exact Or.inr ⟨a, List.mem_cons_self, rfl⟩
      · exact Or.inr ⟨e, List.mem_cons_of_mem _ h, rfl⟩
    · rcases List.mem_cons.mp h with rfl | h
      · exact Or.inr ⟨e, List.mem_cons_self, rfl⟩
      · rcases ih h with hk | ⟨e', he', hk⟩
        · exact Or.inl hk
        · exact Or.inr ⟨e', List.mem_cons_of_mem _ he', hk⟩

theorem upsertList_distinct {k : κ} {f : Option β → β} {l : List (κ × β)}
    (h : l.Pairwise fun a b => (a.1 == b.1) = false) :
    (upsertList k f l).Pairwise fun a b => (a.1 == b.1) = false := by
  induction l with
  | nil => exact List.pairwise_singleton _ _
  | cons a l ih =>
    obtain ⟨ha, hl⟩ := List.pairwise_cons.mp h
    unfold upsertList
    split
    · exact List.pairwise_cons.mpr ⟨ha, hl⟩
    · next hk =>
      refine List.pairwise_cons.mpr ⟨fun e he => ?_, ih hl⟩
      rcases mem_upsertList_key he with rfl | ⟨e', he', hke⟩
      · exact Bool.eq_false_iff.mpr hk
      · rw [← hke]; exact ha e' he'

def upsert (m : IndexMap κ β) (k : κ) (f : Option β → β) : IndexMap κ β :=
  ⟨upsertList k f m.entries, upsertList_distinct m.distinct⟩

/-- Set the value of a key, replacing the one it has. -/
def insert (m : IndexMap κ β) (k : κ) (b : β) : IndexMap κ β := m.upsert k fun _ => b

theorem get?_upsert [PartialEquivBEq κ] (m : IndexMap κ β) (k k' : κ) (f : Option β → β) :
    (m.upsert k f).get? k' = if k == k' then some (f (m.get? k)) else m.get? k' := by
  obtain ⟨l, hl⟩ := m
  simp only [upsert, get?]
  induction l with
  | nil => cases h : k == k' <;> simp [upsertList, h]
  | cons a l ih =>
    have ih := ih (List.pairwise_cons.mp hl).2
    unfold upsertList
    cases hak : a.1 == k with
    | true =>
      have hk' : (a.1 == k') = (k == k') := BEq.congr_left hak
      cases h : k == k' <;> simp [hak, hk', h]
    | false =>
      rw [if_neg (by simp), List.find?_cons]
      cases hak' : a.1 == k' with
      | true =>
        have h : (k == k') = false := by
          cases h : k == k' with
          | false => rfl
          | true => rw [← hak]; exact (BEq.trans hak' (BEq.symm h)).symm
        simp [h, hak']
      | false => simpa [hak, hak'] using ih

theorem map_fst_upsertList (k : κ) (f : Option β → β) (l : List (κ × β)) :
    (upsertList k f l).map (·.1) =
      if l.any fun e => e.1 == k then l.map (·.1) else l.map (·.1) ++ [k] := by
  induction l with
  | nil => rfl
  | cons a l ih =>
    unfold upsertList
    cases hak : a.1 == k with
    | true => simp [hak]
    | false =>
      rw [if_neg (by simp), List.map_cons, ih, List.any_cons, hak, Bool.false_or]
      split <;> simp

theorem keys_upsert (m : IndexMap κ β) (k : κ) (f : Option β → β) :
    (m.upsert k f).keys = if m.containsKey k then m.keys else m.keys ++ [k] :=
  map_fst_upsertList k f m.entries

theorem get?_insert [PartialEquivBEq κ] (m : IndexMap κ β) (k k' : κ) (b : β) :
    (m.insert k b).get? k' = if k == k' then some b else m.get? k' := get?_upsert m k k' _

/-- Collect a list of pairs into a map; a later pair replaces an earlier one of the same key. -/
def ofList (l : List (κ × β)) : IndexMap κ β := l.foldl (fun m e => m.insert e.1 e.2) ∅

theorem ofList_concat (l : List (κ × β)) (e : κ × β) :
    ofList (l ++ [e]) = (ofList l).insert e.1 e.2 := by
  rw [ofList, List.foldl_append]
  rfl

theorem mem_of_get?_ofList [PartialEquivBEq κ] {l : List (κ × β)} {k : κ} {b : β}
    (h : (ofList l).get? k = some b) : ∃ e ∈ l, e.2 = b ∧ (e.1 == k) = true := by
  induction l using List.reverseRecOn with
  | nil => exact absurd h fun h => (nomatch h)
  | append_singleton l e ih =>
    rw [ofList_concat, get?_insert] at h
    by_cases hk : (e.1 == k) = true
    · rw [if_pos hk] at h
      exact ⟨e, List.mem_append_right _ (List.mem_singleton.mpr rfl), Option.some.inj h, hk⟩
    · rw [if_neg hk] at h
      obtain ⟨e', he', h'⟩ := ih h
      exact ⟨e', List.mem_append_left _ he', h'⟩

/-- A key of the list is a key of the map. -/
theorem get?_ofList_isSome [PartialEquivBEq κ] {l : List (κ × β)} {e : κ × β} {k : κ}
    (he : e ∈ l) (hk : (e.1 == k) = true) : ((ofList l).get? k).isSome := by
  induction l using List.reverseRecOn with
  | nil => exact absurd he List.not_mem_nil
  | append_singleton l e' ih =>
    rw [ofList_concat, get?_insert]
    by_cases hk' : (e'.1 == k) = true
    · rw [if_pos hk']
      rfl
    · rw [if_neg hk']
      rcases List.mem_append.mp he with he | he
      · exact ih he
      · exact absurd (List.mem_singleton.mp he ▸ hk) hk'

/-- When no two keys of the list are equal, every pair of it is an entry of the map. -/
theorem get?_ofList [PartialEquivBEq κ] {l : List (κ × β)}
    (hl : l.Pairwise fun a b => (a.1 == b.1) = false) {e : κ × β} {k : κ} (he : e ∈ l)
    (hk : (e.1 == k) = true) : (ofList l).get? k = some e.2 := by
  induction l using List.reverseRecOn with
  | nil => exact absurd he List.not_mem_nil
  | append_singleton l e' ih =>
    obtain ⟨hl1, _, hne⟩ := List.pairwise_append.mp hl
    rw [ofList_concat, get?_insert]
    rcases List.mem_append.mp he with he | he
    · have hk' : ¬ (e'.1 == k) = true := fun hk' => by
        have hee : (e.1 == e'.1) = true := BEq.trans hk (BEq.symm hk')
        rw [hne e he e' (List.mem_singleton.mpr rfl)] at hee
        cases hee
      rw [if_neg hk']
      exact ih hl1 he
    · rw [← List.mem_singleton.mp he, if_pos hk]

theorem upsertList_of_not_mem {k : κ} {f : Option β → β} {l : List (κ × β)}
    (h : ∀ e ∈ l, (e.1 == k) = false) : upsertList k f l = l ++ [(k, f none)] := by
  induction l with
  | nil => rfl
  | cons e l ih =>
    rw [upsertList, h e List.mem_cons_self, ih fun e' he => h e' (List.mem_cons_of_mem _ he)]
    rfl

/-- When no two keys of the list are equal, the list is the map. -/
theorem entries_ofList {l : List (κ × β)} (hl : l.Pairwise fun a b => (a.1 == b.1) = false) :
    (ofList l).entries = l := by
  induction l using List.reverseRecOn with
  | nil => rfl
  | append_singleton l e ih =>
    obtain ⟨hl, _, hne⟩ := List.pairwise_append.mp hl
    have hne : ∀ e' ∈ l, (e'.1 == e.1) = false := fun e' he => hne e' he e List.mem_cons_self
    rw [← ih hl] at hne
    rw [ofList_concat]
    show upsertList e.1 (fun _ => e.2) (ofList l).entries = l ++ [e]
    rw [upsertList_of_not_mem hne, ih hl]

/-! ## Grouping -/

/-- The values of each key, in order. -/
def group (l : List (κ × β)) : IndexMap κ (List β) :=
  l.foldl (fun m e => m.upsert e.1 fun o => o.getD [] ++ [e.2]) ∅

theorem group_concat (l : List (κ × β)) (e : κ × β) :
    group (l ++ [e]) = (group l).upsert e.1 fun o => o.getD [] ++ [e.2] := by
  rw [group, List.foldl_append]
  rfl

/-- The values filed under the keys equal to `k`. -/
def valuesOf (l : List (κ × β)) (k : κ) : List β := (l.filter fun e => e.1 == k).map (·.2)

theorem mem_valuesOf {l : List (κ × β)} {k : κ} {b : β} :
    b ∈ valuesOf l k ↔ ∃ e ∈ l, (e.1 == k) = true ∧ e.2 = b := by
  simp [valuesOf]

theorem get?_group [PartialEquivBEq κ] (l : List (κ × β)) (k : κ) :
    (group l).get? k = if valuesOf l k = [] then none else some (valuesOf l k) := by
  induction l using List.reverseRecOn with
  | nil => rfl
  | append_singleton l e ih =>
    have hvalues : valuesOf (l ++ [e]) k =
        valuesOf l k ++ if e.1 == k then [e.2] else [] := by
      unfold valuesOf
      rw [List.filter_append, List.map_append, List.filter_singleton]
      cases e.1 == k <;> rfl
    rw [group_concat, get?_upsert, hvalues]
    by_cases hk : (e.1 == k) = true
    · rw [if_pos hk, if_pos hk, if_neg (by simp), get?_congr hk, ih]
      by_cases hv : valuesOf l k = []
      · rw [if_pos hv, hv]
        rfl
      · rw [if_neg hv]
        rfl
    · rw [if_neg hk, if_neg hk, List.append_nil, ih]

/-! ## Update in place and removal -/

/-- `f` at the entry of key `k`, nothing when there is none. -/
def modify (m : IndexMap κ β) (k : κ) (f : β → β) : IndexMap κ β :=
  ⟨m.entries.map fun e => if e.1 == k then (e.1, f e.2) else e, by
    refine List.pairwise_map.mpr (m.distinct.imp fun {a b} h => ?_)
    split <;> split <;> exact h⟩

theorem get?_modify [PartialEquivBEq κ] (m : IndexMap κ β) (k k' : κ) (f : β → β) :
    (m.modify k f).get? k' = if k == k' then (m.get? k').map f else m.get? k' := by
  obtain ⟨l, hl⟩ := m
  simp only [modify, get?]
  induction l with
  | nil => simp
  | cons a l ih =>
    have ih := ih (List.pairwise_cons.mp hl).2
    rw [List.map_cons, List.find?_cons, List.find?_cons]
    cases hak' : a.1 == k' with
    | true =>
      have hk : (a.1 == k) = (k == k') := by
        rw [BEq.comm (a := k)]; exact BEq.congr_left hak'
      cases h : k == k' <;> simp [hk, h, hak']
    | false =>
      cases hak : a.1 == k <;> simpa [hak, hak'] using ih

/-- Remove a key, keeping the order of the others (`shift_remove`). -/
def erase (m : IndexMap κ β) (k : κ) : IndexMap κ β :=
  ⟨m.entries.filter fun e => !(e.1 == k), m.distinct.filter _⟩

theorem get?_erase [PartialEquivBEq κ] (m : IndexMap κ β) (k k' : κ) :
    (m.erase k).get? k' = if k == k' then none else m.get? k' := by
  obtain ⟨l, hl⟩ := m
  simp only [erase, get?]
  induction l with
  | nil => simp
  | cons a l ih =>
    have ih := ih (List.pairwise_cons.mp hl).2
    cases hak : a.1 == k with
    | true =>
      have hk' : (a.1 == k') = (k == k') := BEq.congr_left hak
      rw [List.filter_cons_of_neg (by simp [hak]), ih, List.find?_cons, hk']
      cases h : k == k' <;> simp
    | false =>
      rw [List.filter_cons_of_pos (by simp [hak]), List.find?_cons, List.find?_cons]
      cases hak' : a.1 == k' with
      | true =>
        have h : (k == k') = false := by
          cases h : k == k' with
          | false => rfl
          | true => rw [← hak]; exact (BEq.trans hak' (BEq.symm h)).symm
        simp [h]
      | false => exact ih

/-! ## Folding entries into a map -/

/-- Combine one value into an optional one: the value itself when there is none. -/
def combine (g : β → β → β) (o : Option β) (b : β) : β :=
  match o with
  | none => b
  | some a => g a b

/-- Fold the entries of `n` into `m` in order, combining the values of equal keys with `g`. -/
def mergeWith (g : β → β → β) (m n : IndexMap κ β) : IndexMap κ β :=
  n.entries.foldl (fun acc e => acc.upsert e.1 fun o => combine g o e.2) m

theorem get?_mergeWith [PartialEquivBEq κ] (g : β → β → β) (m n : IndexMap κ β) (k : κ) :
    (m.mergeWith g n).get? k =
      match n.get? k with
      | none => m.get? k
      | some b => some (combine g (m.get? k) b) := by
  obtain ⟨l, hl⟩ := n
  simp only [mergeWith]
  induction l generalizing m with
  | nil => rfl
  | cons a l ih =>
    obtain ⟨ha, hl'⟩ := List.pairwise_cons.mp hl
    rw [List.foldl_cons, ih _ hl', get?_upsert]
    cases hak : a.1 == k with
    | false => simp [get?, hak]
    | true =>
      have hnone : (⟨l, hl'⟩ : IndexMap κ β).get? k = none := by
        rw [get?, Option.map_eq_none_iff, List.find?_eq_none]
        intro e he hek
        have : (a.1 == e.1) = true := BEq.trans hak (BEq.symm hek)
        rw [ha e he] at this
        cases this
      have hsome : (⟨a :: l, hl⟩ : IndexMap κ β).get? k = some a.2 := by simp [get?, hak]
      rw [hnone, hsome, get?_congr hak]
      rfl

end IndexMap

end Collections
