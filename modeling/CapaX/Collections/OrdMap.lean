import CapaX.Collections.OrdSet

/-
  Finite maps ordered by key, the maps a `BTreeMap` holds: the entries in increasing key order.
  Every operation has one lookup lemma (`get?_upsert`, `get?_erase`); a map is determined by its
  lookups (`ext_get?`).
-/

namespace Collections

/-- A map kept as its entries, strictly increasing in the key. -/
structure OrdMap (κ β : Type) [LinearOrder κ] where
  entries : List (κ × β)
  sorted : entries.Pairwise fun a b => a.1 < b.1

namespace OrdMap

variable {κ β : Type} [LinearOrder κ]

def empty : OrdMap κ β := ⟨[], List.Pairwise.nil⟩

instance : EmptyCollection (OrdMap κ β) := ⟨empty⟩

instance : Inhabited (OrdMap κ β) := ⟨empty⟩

def keys (m : OrdMap κ β) : List κ := m.entries.map (·.1)

/-- The value of a key, or `none`. -/
def get? (m : OrdMap κ β) (k : κ) : Option β :=
  (m.entries.find? fun e => decide (e.1 = k)).map (·.2)

/-- Keys are distinct: two entries of one key are one entry. -/
theorem keys_nodup (m : OrdMap κ β) : m.keys.Nodup :=
  List.pairwise_map.mpr (m.sorted.imp fun h => ne_of_lt h)

/-- `f` at the entry of a key, or a new entry at the key's place. -/
def upsertList (k : κ) (f : Option β → β) : List (κ × β) → List (κ × β)
  | [] => [(k, f none)]
  | e :: es =>
    if k < e.1 then (k, f none) :: e :: es
    else if k = e.1 then (k, f (some e.2)) :: es
    else e :: upsertList k f es

theorem key_of_mem_upsertList {k : κ} {f : Option β → β} {l : List (κ × β)} {e : κ × β}
    (h : e ∈ upsertList k f l) : e.1 = k ∨ ∃ e' ∈ l, e'.1 = e.1 := by
  induction l with
  | nil =>
    have he : e = (k, f none) := List.mem_singleton.mp h
    exact Or.inl (by rw [he])
  | cons a l ih =>
    unfold upsertList at h
    split at h
    · rcases List.mem_cons.mp h with rfl | h
      · exact Or.inl rfl
      · exact Or.inr ⟨e, h, rfl⟩
    · split at h
      · rcases List.mem_cons.mp h with rfl | h
        · exact Or.inl rfl
        · exact Or.inr ⟨e, List.mem_cons_of_mem _ h, rfl⟩
      · rcases List.mem_cons.mp h with rfl | h
        · exact Or.inr ⟨e, List.mem_cons_self, rfl⟩
        · rcases ih h with hk | ⟨e', he', hk⟩
          · exact Or.inl hk
          · exact Or.inr ⟨e', List.mem_cons_of_mem _ he', hk⟩

theorem upsertList_sorted {k : κ} {f : Option β → β} {l : List (κ × β)}
    (h : l.Pairwise fun a b => a.1 < b.1) :
    (upsertList k f l).Pairwise fun a b => a.1 < b.1 := by
  induction l with
  | nil => exact List.pairwise_singleton _ _
  | cons a l ih =>
    obtain ⟨ha, hl⟩ := List.pairwise_cons.mp h
    unfold upsertList
    split
    · next hk =>
      refine List.pairwise_cons.mpr ⟨fun e he => ?_, h⟩
      rcases List.mem_cons.mp he with rfl | he
      · exact hk
      · exact hk.trans (ha e he)
    · split
      · next hk => exact List.pairwise_cons.mpr ⟨fun e he => by rw [hk]; exact ha e he, hl⟩
      · next hlt hne =>
        refine List.pairwise_cons.mpr ⟨fun e he => ?_, ih hl⟩
        rcases key_of_mem_upsertList he with hk | ⟨e', he', hk⟩
        · rw [hk]; exact lt_of_le_of_ne (not_lt.mp hlt) (Ne.symm hne)
        · rw [← hk]; exact ha e' he'

def upsert (m : OrdMap κ β) (k : κ) (f : Option β → β) : OrdMap κ β :=
  ⟨upsertList k f m.entries, upsertList_sorted m.sorted⟩

def erase (m : OrdMap κ β) (k : κ) : OrdMap κ β :=
  ⟨m.entries.filter fun e => decide (e.1 ≠ k), m.sorted.filter _⟩

/-- Collect pairs into a map; a later pair replaces an earlier one of the same key. -/
def ofList (l : List (κ × β)) : OrdMap κ β := l.foldl (fun m e => m.upsert e.1 fun _ => e.2) ∅

/-! ## Lookups -/

theorem mem_entries_iff {m : OrdMap κ β} {k : κ} {b : β} :
    (k, b) ∈ m.entries ↔ m.get? k = some b := by
  unfold get?
  constructor
  · intro h
    cases hf : m.entries.find? fun e => decide (e.1 = k) with
    | none =>
      have hk : ¬ decide (k = k) = true := List.find?_eq_none.mp hf (k, b) h
      exact absurd (decide_eq_true rfl) hk
    | some e =>
      have hk : e.1 = k := by simpa using List.find?_some hf
      have he : (e.1, e.2) ∈ m.entries := List.mem_of_find?_eq_some hf
      rw [hk] at he
      have hinj := List.inj_on_of_nodup_map m.keys_nodup he h rfl
      rw [Option.map_some, (Prod.mk.inj hinj).2]
  · intro h
    obtain ⟨e, he, rfl⟩ := Option.map_eq_some_iff.mp h
    have hk : e.1 = k := by simpa using List.find?_some he
    rw [← hk]
    exact List.mem_of_find?_eq_some he

theorem mem_keys_iff {m : OrdMap κ β} {k : κ} : k ∈ m.keys ↔ (m.get? k).isSome = true := by
  rw [Option.isSome_iff_exists, keys, List.mem_map]
  constructor
  · rintro ⟨e, he, rfl⟩
    exact ⟨e.2, mem_entries_iff.mp he⟩
  · rintro ⟨b, hb⟩
    exact ⟨(k, b), mem_entries_iff.mpr hb, rfl⟩

@[simp] theorem get?_empty (k : κ) : (∅ : OrdMap κ β).get? k = none := rfl

/-- A map is determined by its lookups: the increasing enumeration is unique. -/
theorem ext_get? {m n : OrdMap κ β} (h : ∀ k, m.get? k = n.get? k) : m = n := by
  have hmem (e : κ × β) : e ∈ m.entries ↔ e ∈ n.entries := by
    obtain ⟨k, b⟩ := e
    rw [mem_entries_iff, mem_entries_iff, h]
  have hp : m.entries.Perm n.entries :=
    (List.perm_ext_iff_of_nodup (List.Nodup.of_map _ m.keys_nodup)
      (List.Nodup.of_map _ n.keys_nodup)).mpr hmem
  have hl : m.entries = n.entries :=
    hp.eq_of_pairwise (fun a b _ _ h1 h2 => absurd (h1.trans h2) (lt_irrefl a.1)) m.sorted n.sorted
  cases m; cases n; simp_all

theorem find?_upsertList {k k' : κ} {f : Option β → β} {l : List (κ × β)}
    (h : l.Pairwise fun a b => a.1 < b.1) :
    ((upsertList k f l).find? fun e => decide (e.1 = k')).map (·.2) =
      if k' = k then some (f ((l.find? fun e => decide (e.1 = k)).map (·.2)))
      else (l.find? fun e => decide (e.1 = k')).map (·.2) := by
  induction l with
  | nil => by_cases hk : k' = k <;> simp [upsertList, hk, eq_comm]
  | cons a l ih =>
    obtain ⟨ha, hl⟩ := List.pairwise_cons.mp h
    unfold upsertList
    split
    · next hlt =>
      -- the new key is below every stored one, so a lookup of it found nothing before
      have hnone : (a :: l).find? (fun e => decide (e.1 = k)) = none := by
        refine List.find?_eq_none.mpr fun e he => ?_
        have hke : k < e.1 := by
          rcases List.mem_cons.mp he with rfl | he
          · exact hlt
          · exact hlt.trans (ha e he)
        simp [ne_of_gt hke]
      by_cases hk : k' = k
      · subst hk
        simp [hnone]
      · simp [hk, Ne.symm hk]
    · split
      · next hlt heq =>
        by_cases hk : k' = k
        · subst hk
          simp [heq]
        · simp [Ne.symm hk, ← heq, hk]
      · next hlt hne =>
        rw [List.find?_cons]
        by_cases hak : a.1 = k'
        · have hk : k' ≠ k := fun hk => hne (hk ▸ hak.symm)
          simp [hak, hk]
        · simp only [hak, decide_false, ih hl, List.find?_cons, Ne.symm hne]

@[simp] theorem get?_upsert (m : OrdMap κ β) (k k' : κ) (f : Option β → β) :
    (m.upsert k f).get? k' = if k' = k then some (f (m.get? k)) else m.get? k' :=
  find?_upsertList m.sorted

@[simp] theorem get?_erase (m : OrdMap κ β) (k k' : κ) :
    (m.erase k).get? k' = if k' = k then none else m.get? k' := by
  unfold get? erase
  rw [List.find?_filter]
  by_cases hk : k' = k
  · subst hk
    simp
  · simp only [hk, if_false]
    congr 2
    funext e
    by_cases he : e.1 = k' <;> simp [he, hk]

/-! ## Collected pairs -/

theorem get?_foldl_upsert (l : List (κ × β)) (m : OrdMap κ β) (k : κ) :
    (l.foldl (fun m e => m.upsert e.1 fun _ => e.2) m).get? k =
      ((l.reverse.find? fun e => decide (e.1 = k)).map (·.2)).or (m.get? k) := by
  induction l generalizing m with
  | nil => rfl
  | cons e l ih =>
    rw [List.foldl_cons, ih, get?_upsert, List.reverse_cons, List.find?_append]
    cases l.reverse.find? fun e => decide (e.1 = k) with
    | some e' => rfl
    | none => by_cases hk : k = e.1 <;> simp [hk, eq_comm]

/-- The last pair of a key is what its lookup finds. -/
theorem get?_ofList (l : List (κ × β)) (k : κ) :
    (ofList l).get? k = (l.reverse.find? fun e => decide (e.1 = k)).map (·.2) := by
  unfold ofList
  rw [get?_foldl_upsert, get?_empty, Option.or_none]

theorem mem_of_get?_ofList {l : List (κ × β)} {k : κ} {b : β} (h : (ofList l).get? k = some b) :
    (k, b) ∈ l := by
  rw [get?_ofList] at h
  obtain ⟨e, he, rfl⟩ := Option.map_eq_some_iff.mp h
  have hk : e.1 = k := by simpa using List.find?_some he
  have hmem : e ∈ l := List.mem_reverse.mp (List.mem_of_find?_eq_some he)
  rw [← hk]
  exact hmem

theorem mem_of_mem_ofList {l : List (κ × β)} {e : κ × β} (h : e ∈ (ofList l).entries) : e ∈ l := by
  obtain ⟨k, b⟩ := e
  exact mem_of_get?_ofList (mem_entries_iff.mp h)

theorem get?_ofList_of_mem {l : List (κ × β)} (hl : (l.map (·.1)).Nodup) {k : κ} {b : β}
    (h : (k, b) ∈ l) : (ofList l).get? k = some b := by
  cases hf : (ofList l).get? k with
  | none =>
    rw [get?_ofList, Option.map_eq_none_iff, List.find?_eq_none] at hf
    have hne := hf (k, b) (List.mem_reverse.mpr h)
    exact absurd (decide_eq_true rfl) hne
  | some b' =>
    have hinj := List.inj_on_of_nodup_map hl (mem_of_get?_ofList hf) h rfl
    rw [(Prod.mk.inj hinj).2]

/-- A map is what its own entries collect to. -/
@[simp] theorem ofList_entries (m : OrdMap κ β) : ofList m.entries = m := by
  refine ext_get? fun k => ?_
  cases h : m.get? k with
  | some b => exact get?_ofList_of_mem m.keys_nodup (mem_entries_iff.mpr h)
  | none =>
    cases h' : (ofList m.entries).get? k with
    | none => rfl
    | some b => rw [mem_entries_iff.mp (mem_of_get?_ofList h')] at h; exact h

/-- Pairs of distinct keys collect to the same map in any order. -/
theorem ofList_perm {l l' : List (κ × β)} (hl : (l.map (·.1)).Nodup) (h : l.Perm l') :
    ofList l = ofList l' := by
  have hl' : (l'.map (·.1)).Nodup := (h.map _).nodup_iff.mp hl
  refine ext_get? fun k => ?_
  cases hk : (ofList l).get? k with
  | some b => exact (get?_ofList_of_mem hl' (h.mem_iff.mp (mem_of_get?_ofList hk))).symm
  | none =>
    cases hk' : (ofList l').get? k with
    | none => rfl
    | some b =>
      rw [get?_ofList_of_mem hl (h.mem_iff.mpr (mem_of_get?_ofList hk'))] at hk
      cases hk

/-! ## Values -/

variable {γ : Type}

/-- `f` at every value. -/
def mapValues (f : β → γ) (m : OrdMap κ β) : OrdMap κ γ :=
  ⟨m.entries.map fun e => (e.1, f e.2), List.pairwise_map.mpr m.sorted⟩

end OrdMap

end Collections
