import CapaX.Collections.IndexMap
import CapaX.Collections.OrdSet
import CapaX.Control.Except

/-
  Depth-first searches over a successor function `succ : α → List α`, with fuel.

  * `closure` collects what is reachable (`closureAll_spec`: the result is closed under `succ`
    and holds nothing unreachable);
  * `postorder` lists vertices after their successors: on an acyclic graph, given by a rank that
    falls along every edge, the list has the successors of an entry before it (`DepsFirst`,
    `postorderAll_spec`);
  * `visit` lists them likewise and reports a cycle instead of running into it: what it lists is in
    order (`visitAll_spec`), without a cycle it succeeds (`visit_ok`), and on any graph it is a
    finite run of the recursion (`visit_returns`).

  Fuel is enough when it exceeds the number of unseen vertices among `known`, the vertices that
  have successors at all: each nested call marks one more of them.
-/

namespace Graphs

open Collections

/-- A list keeps fewer entries under a predicate that is stronger and fails at one of them. -/
theorem filter_length_lt {α : Type} {p q : α → Bool} {l : List α} (h : ∀ a, p a = true → q a = true)
    {a : α} (ha : a ∈ l) (hp : p a = false) (hq : q a = true) :
    (l.filter p).length < (l.filter q).length := by
  have hsub : (l.filter p).Sublist (l.filter q) := List.monotone_filter_right l h
  refine lt_of_le_of_ne hsub.length_le fun heq => ?_
  have hmem : a ∈ l.filter p := hsub.eq_of_length heq ▸ List.mem_filter.mpr ⟨ha, hq⟩
  rw [(List.mem_filter.mp hmem).2] at hp
  cases hp

variable {α : Type} [LinearOrder α]

/-- The entries of `known` a search has not seen yet. -/
def unseen (known : List α) (seen : OrdSet α) : Nat :=
  (known.filter fun a => decide (a ∉ seen)).length

theorem unseen_mono {known : List α} {seen seen' : OrdSet α} (h : ∀ a ∈ seen, a ∈ seen') :
    unseen known seen' ≤ unseen known seen := by
  unfold unseen
  refine (List.monotone_filter_right known fun a ha => ?_).length_le
  rw [decide_eq_true_eq] at ha ⊢
  exact fun hs => ha (h a hs)

/-- Marking an unseen known vertex leaves fewer of them. -/
theorem unseen_insert_lt {known : List α} {seen : OrdSet α} {a : α} (ha : a ∈ known)
    (hs : a ∉ seen) : unseen known (seen.insert a) < unseen known seen := by
  refine filter_length_lt (fun x hx => ?_) ha ?_ (decide_eq_true hs)
  · rw [decide_eq_true_eq] at hx ⊢
    exact fun hx' => hx (OrdSet.mem_insert.mpr (Or.inr hx'))
  · exact decide_eq_false (not_not.mpr (OrdSet.mem_insert.mpr (Or.inl rfl)))

/-! ## Reachability -/

/-- Mark `a` and everything reachable from it, stopping at what is marked already. -/
def closure (succ : α → List α) : Nat → α → OrdSet α → OrdSet α
  | 0, _, out => out
  | fuel + 1, a, out =>
    if a ∈ out then out
    else (succ a).foldl (fun out b => closure succ fuel b out) (out.insert a)

/-- `b` can be reached from `a`. -/
inductive Reaches (succ : α → List α) : α → α → Prop
  | refl (a : α) : Reaches succ a a
  | step {a b c : α} (h : b ∈ succ a) (h' : Reaches succ b c) : Reaches succ a c

omit [LinearOrder α] in
theorem Reaches.reflTransGen {succ : α → List α} {a b : α} (h : Reaches succ a b) :
    Relation.ReflTransGen (fun a b => b ∈ succ a) a b := by
  induction h with
  | refl => exact .refl
  | step hb _ ih => exact .head hb ih

/-- What a search from vertices satisfying `from_` adds to a set: reachable vertices, and all
    successors of each of them. -/
structure Grows (succ : α → List α) (from_ : α → Prop) (out out' : OrdSet α) : Prop where
  mono : ∀ x ∈ out, x ∈ out'
  reached : ∀ x ∈ out', x ∈ out ∨ ∃ a, from_ a ∧ Reaches succ a x
  closed : ∀ x ∈ out', x ∈ out ∨ ∀ y ∈ succ x, y ∈ out'

theorem Grows.refl {succ : α → List α} {p : α → Prop} (out : OrdSet α) : Grows succ p out out :=
  ⟨fun _ h => h, fun _ h => Or.inl h, fun _ h => Or.inl h⟩

theorem Grows.trans {succ : α → List α} {p : α → Prop} {out out' out'' : OrdSet α}
    (h : Grows succ p out out') (h' : Grows succ p out' out'') : Grows succ p out out'' where
  mono x hx := h'.mono x (h.mono x hx)
  reached x hx := (h'.reached x hx).elim (h.reached x) Or.inr
  closed x hx := by
    rcases h'.closed x hx with hx | hx
    · exact (h.closed x hx).imp id fun hs y hy => h'.mono y (hs y hy)
    · exact Or.inr hx

/-- A fold over search steps: it grows as each step does, and holds what each step adds. -/
theorem Grows.foldl {succ : α → List α} {p : α → Prop} {f : OrdSet α → α → OrdSet α}
    {bs : List α} {out : OrdSet α}
    (h : ∀ b ∈ bs, ∀ o, (∀ x ∈ out, x ∈ o) → Grows succ p o (f o b) ∧ b ∈ f o b) :
    Grows succ p out (bs.foldl f out) ∧ ∀ b ∈ bs, b ∈ bs.foldl f out := by
  induction bs generalizing out with
  | nil => exact ⟨.refl out, fun _ hb => absurd hb List.not_mem_nil⟩
  | cons b bs ih =>
    obtain ⟨hg, hb⟩ := h b List.mem_cons_self out fun _ hx => hx
    have hrest := ih fun c hc o ho => h c (List.mem_cons_of_mem _ hc) o fun x hx =>
      ho x (hg.mono x hx)
    refine ⟨hg.trans hrest.1, fun c hc => ?_⟩
    rcases List.mem_cons.mp hc with rfl | hc
    · exact hrest.1.mono c hb
    · exact hrest.2 c hc

theorem closure_spec {succ : α → List α} {known : List α} (hk : ∀ a, a ∉ known → succ a = [])
    {fuel : Nat} {a : α} {out : OrdSet α} (hf : unseen known out < fuel) :
    Grows succ (· = a) out (closure succ fuel a out) ∧ a ∈ closure succ fuel a out := by
  induction fuel generalizing a out with
  | zero => exact absurd hf (Nat.not_lt_zero _)
  | succ fuel ih =>
    unfold closure
    by_cases ha : a ∈ out
    · rw [if_pos ha]
      exact ⟨.refl out, ha⟩
    · rw [if_neg ha]
      have hmem : a ∈ out.insert a := OrdSet.mem_insert.mpr (Or.inl rfl)
      have hsub : ∀ x ∈ out, x ∈ out.insert a := fun x hx => OrdSet.mem_insert.mpr (Or.inr hx)
      have hfold : Grows succ (fun b => b ∈ succ a) (out.insert a)
            ((succ a).foldl (fun out b => closure succ fuel b out) (out.insert a)) ∧
          ∀ b ∈ succ a, b ∈
            (succ a).foldl (fun out b => closure succ fuel b out) (out.insert a) := by
        refine Grows.foldl fun b hb o ho => ?_
        have hak : a ∈ known := by
          by_contra hn
          rw [hk a hn] at hb
          exact List.not_mem_nil hb
        have hlt := unseen_insert_lt hak ha
        have hle : unseen known o ≤ unseen known (out.insert a) := unseen_mono ho
        have hsearch : Grows succ (· = b) o (closure succ fuel b o) ∧ b ∈ closure succ fuel b o :=
          ih (by omega)
        obtain ⟨hg, hbo⟩ := hsearch
        refine ⟨⟨hg.mono, fun x hx => ?_, hg.closed⟩, hbo⟩
        rcases hg.reached x hx with hx | ⟨c, rfl, hc⟩
        · exact Or.inl hx
        · exact Or.inr ⟨c, hb, hc⟩
      obtain ⟨hg, hs⟩ := hfold
      refine ⟨⟨fun x hx => hg.mono x (hsub x hx), fun x hx => ?_, fun x hx => ?_⟩,
        hg.mono a hmem⟩
      · rcases hg.reached x hx with hx | ⟨b, hb, hbx⟩
        · rcases OrdSet.mem_insert.mp hx with rfl | hx
          · exact Or.inr ⟨x, rfl, .refl x⟩
          · exact Or.inl hx
        · exact Or.inr ⟨a, rfl, .step hb hbx⟩
      · rcases hg.closed x hx with hx | hx
        · rcases OrdSet.mem_insert.mp hx with rfl | hx
          · exact Or.inr hs
          · exact Or.inl hx
        · exact Or.inr hx

/-- Searching from every vertex of a list yields exactly what is reachable from one of them. -/
theorem closureAll_spec {succ : α → List α} {known starts : List α} {fuel : Nat}
    (hk : ∀ a, a ∉ known → succ a = []) (hf : known.length < fuel) :
    let out := starts.foldl (fun out a => closure succ fuel a out) ∅
    (∀ a ∈ starts, a ∈ out) ∧ (∀ x ∈ out, ∀ y ∈ succ x, y ∈ out) ∧
      ∀ x ∈ out, ∃ a ∈ starts, Reaches succ a x := by
  intro out
  have hfold : Grows succ (fun a => a ∈ starts) ∅ out ∧ ∀ a ∈ starts, a ∈ out := by
    refine Grows.foldl fun a ha o _ => ?_
    have hle : unseen known o ≤ known.length := List.length_filter_le _ _
    obtain ⟨hg, hm⟩ := closure_spec (a := a) hk (Nat.lt_of_le_of_lt hle hf)
    refine ⟨⟨hg.mono, fun x hx => ?_, hg.closed⟩, hm⟩
    rcases hg.reached x hx with hx | ⟨c, rfl, hc⟩
    · exact Or.inl hx
    · exact Or.inr ⟨c, ha, hc⟩
  obtain ⟨hg, hs⟩ := hfold
  refine ⟨hs, fun x hx => ?_, fun x hx => ?_⟩
  · exact (hg.closed x hx).resolve_left (OrdSet.not_mem_empty x)
  · obtain ⟨a, ha, hx⟩ := (hg.reached x hx).resolve_left (OrdSet.not_mem_empty x)
    exact ⟨a, ha, hx⟩

/-! ## Dependency-first lists -/

section

variable {α : Type} {succ : α → List α} {order : List α}

/-- Every successor of an entry stands before it. -/
def DepsFirst (succ : α → List α) (order : List α) : Prop :=
  ∀ pre a post, order = pre ++ a :: post → ∀ b ∈ succ a, b ∈ pre

theorem DepsFirst.nil : DepsFirst succ [] := by
  intro pre a post h
  exact absurd h.symm (List.append_ne_nil_of_right_ne_nil pre (List.cons_ne_nil a post))

theorem DepsFirst.snoc {a : α} (h : DepsFirst succ order) (ha : ∀ b ∈ succ a, b ∈ order) :
    DepsFirst succ (order ++ [a]) := by
  intro pre c post he b hb
  rcases List.eq_nil_or_concat post with rfl | ⟨post', z, rfl⟩
  · obtain ⟨h1, h2⟩ := List.append_inj' he rfl
    obtain rfl : a = c := (List.cons.inj h2).1
    rw [← h1]
    exact ha b hb
  · have he' : order ++ [a] = (pre ++ c :: post') ++ [z] := by
      rw [he, List.concat_eq_append, List.append_assoc, List.cons_append]
    exact h pre c post' (List.append_inj' he' rfl).1 b hb

/-- A dependency-first list gives a rank: the position. -/
theorem DepsFirst.idxOf_lt [DecidableEq α] (h : DepsFirst succ order) {a b : α}
    (ha : a ∈ order) (hb : b ∈ succ a) : b ∈ order ∧ order.idxOf b < order.idxOf a := by
  obtain ⟨pre, post, he, hpre⟩ := List.eq_append_cons_of_mem ha
  have hb : b ∈ pre := h pre a post he b hb
  have hbi : order.idxOf b < pre.length := by
    rw [he, List.idxOf_append_of_mem hb]
    exact List.idxOf_lt_length_of_mem hb
  have hai : order.idxOf a = pre.length := by
    rw [he, List.idxOf_append_of_notMem hpre, List.idxOf_cons_self, Nat.add_zero]
  exact ⟨he ▸ List.mem_append_left _ hb, by omega⟩

/-- Among the entries a predicate keeps, the kept successors still come first. -/
theorem DepsFirst.filter {p : α → Bool} (h : DepsFirst succ order) {pre post : List α} {a : α}
    (he : order.filter p = pre ++ a :: post) {b : α} (hb : b ∈ succ a) (hp : p b = true) :
    b ∈ pre := by
  obtain ⟨l, r, rfl, hl, hr⟩ := List.filter_eq_append_iff.mp he
  obtain ⟨r1, r2, rfl, hr1, _, _⟩ := List.filter_eq_cons_iff.mp hr
  have hmem : b ∈ l ++ r1 := h (l ++ r1) a r2 (by rw [List.append_assoc]) b hb
  have hkept : b ∈ (l ++ r1).filter p := List.mem_filter.mpr ⟨hmem, hp⟩
  rw [List.filter_append, hl, List.filter_eq_nil_iff.mpr hr1, List.append_nil] at hkept
  exact hkept

end

/-! ## Post-order -/

/-- The vertices marked so far, and those that are finished, in the order they finished. -/
structure Postorder (α : Type) [LinearOrder α] where
  seen : OrdSet α
  order : List α

/-- List `a` after everything it leads to, skipping what is marked already. -/
def postorder (succ : α → List α) : Nat → α → Postorder α → Postorder α
  | 0, _, s => s
  | fuel + 1, a, s =>
    if a ∈ s.seen then s
    else
      let s := (succ a).foldl (fun s b => postorder succ fuel b s) { s with seen := s.seen.insert a }
      { s with order := s.order ++ [a] }

/-- The invariant of the finished vertices. -/
structure Postorder.Good (succ : α → List α) (s : Postorder α) : Prop where
  seen_of_order : ∀ a ∈ s.order, a ∈ s.seen
  nodup : s.order.Nodup
  depsFirst : DepsFirst succ s.order

/-- What a search does to a state: more vertices are marked, and each newly marked one is
    finished. -/
structure Postorder.Ext (s s' : Postorder α) : Prop where
  seen_mono : ∀ a ∈ s.seen, a ∈ s'.seen
  order_mono : ∀ a ∈ s.order, a ∈ s'.order
  fresh : ∀ a ∈ s'.order, a ∈ s.order ∨ a ∉ s.seen
  finished : ∀ a ∈ s'.seen, a ∈ s.seen ∨ a ∈ s'.order

namespace Postorder

variable {succ : α → List α} {s s' s'' : Postorder α}

theorem Ext.refl (s : Postorder α) : Ext s s :=
  ⟨fun _ h => h, fun _ h => h, fun _ h => Or.inl h, fun _ h => Or.inl h⟩

theorem Ext.trans (h : Ext s s') (h' : Ext s' s'') : Ext s s'' where
  seen_mono a ha := h'.seen_mono a (h.seen_mono a ha)
  order_mono a ha := h'.order_mono a (h.order_mono a ha)
  fresh a ha := (h'.fresh a ha).elim (h.fresh a) fun hn => Or.inr fun hs => hn (h.seen_mono a hs)
  finished a ha := (h'.finished a ha).elim
    (fun hs => (h.finished a hs).imp id (h'.order_mono a)) Or.inr

/-- The vertices on the search path: marked and not finished. -/
def Open (s : Postorder α) (a : α) : Prop := a ∈ s.seen ∧ a ∉ s.order

/-- Nothing new is open after a completed search. -/
theorem Ext.open_mono (h : Ext s s') {a : α} (ha : s'.Open a) : s.Open a := by
  refine ⟨(h.finished a ha.1).resolve_right ha.2, fun hs => ha.2 (h.order_mono a hs)⟩

/-- A fold over searches that each extend the state and finish their vertex. -/
theorem Ext.foldl {f : Postorder α → α → Postorder α} {bs : List α} {s : Postorder α}
    (hs : s.Good succ)
    (h : ∀ b ∈ bs, ∀ t, Ext s t → t.Good succ → Ext t (f t b) ∧ (f t b).Good succ ∧
      b ∈ (f t b).order) :
    Ext s (bs.foldl f s) ∧ (bs.foldl f s).Good succ ∧ ∀ b ∈ bs, b ∈ (bs.foldl f s).order := by
  induction bs generalizing s with
  | nil => exact ⟨.refl s, hs, fun _ hb => absurd hb List.not_mem_nil⟩
  | cons b bs ih =>
    obtain ⟨he, hg, hb⟩ := h b List.mem_cons_self s (.refl s) hs
    obtain ⟨he', hg', hbs⟩ := ih hg fun c hc t ht => h c (List.mem_cons_of_mem _ hc) t (he.trans ht)
    refine ⟨he.trans he', hg', fun c hc => ?_⟩
    rcases List.mem_cons.mp hc with rfl | hc
    · exact he'.order_mono c hb
    · exact hbs c hc

end Postorder

/-- One search, with every open vertex above the one it starts from. -/
theorem postorder_spec {succ : α → List α} {known : List α} {rank : α → α → Prop}
    [IsTrans α rank] [Std.Irrefl rank] (hrank : ∀ a, ∀ b ∈ succ a, rank b a)
    (hk : ∀ a, a ∉ known → succ a = []) {fuel : Nat} {a : α} {s : Postorder α}
    (hf : unseen known s.seen < fuel) (hs : s.Good succ) (hopen : ∀ x, s.Open x → rank a x) :
    s.Ext (postorder succ fuel a s) ∧ (postorder succ fuel a s).Good succ ∧
      a ∈ (postorder succ fuel a s).order := by
  induction fuel generalizing a s with
  | zero => exact absurd hf (Nat.not_lt_zero _)
  | succ fuel ih =>
    unfold postorder
    by_cases ha : a ∈ s.seen
    · rw [if_pos ha]
      refine ⟨.refl s, hs, ?_⟩
      by_contra hn
      exact Std.Irrefl.irrefl a (hopen a ⟨ha, hn⟩)
    · rw [if_neg ha]
      have hao : a ∉ s.order := fun h => ha (hs.seen_of_order a h)
      -- the state in which the successors are searched: `a` is open
      let s1 : Postorder α := { s with seen := s.seen.insert a }
      have hs1 : s1.Good succ :=
        ⟨fun x hx => OrdSet.mem_insert.mpr (Or.inr (hs.seen_of_order x hx)), hs.nodup, hs.depsFirst⟩
      have hfold : s1.Ext ((succ a).foldl (fun s b => postorder succ fuel b s) s1) ∧
          ((succ a).foldl (fun s b => postorder succ fuel b s) s1).Good succ ∧
          ∀ b ∈ succ a, b ∈ ((succ a).foldl (fun s b => postorder succ fuel b s) s1).order :=
        Postorder.Ext.foldl hs1 fun b hb t ht hg => by
          have hak : a ∈ known := by
            by_contra hn
            rw [hk a hn] at hb
            exact List.not_mem_nil hb
          have hlt := unseen_insert_lt hak ha
          have hle : unseen known t.seen ≤ unseen known (s.seen.insert a) :=
            unseen_mono ht.seen_mono
          refine ih (by omega) hg fun x hx => ?_
          obtain ⟨hx1, hx2⟩ := ht.open_mono hx
          rcases OrdSet.mem_insert.mp hx1 with rfl | hx1
          · exact hrank x b hb
          · exact IsTrans.trans b a x (hrank a b hb) (hopen x ⟨hx1, hx2⟩)
      obtain ⟨he, hg, hdeps⟩ := hfold
      generalize (succ a).foldl (fun s b => postorder succ fuel b s) s1 = s2 at he hg hdeps
      have ha2 : a ∉ s2.order := fun h =>
        (he.fresh a h).elim hao fun hn => hn (OrdSet.mem_insert.mpr (Or.inl rfl))
      refine ⟨⟨?_, ?_, ?_, ?_⟩, ⟨?_, ?_, hg.depsFirst.snoc hdeps⟩, ?_⟩
      · exact fun x hx => he.seen_mono x (OrdSet.mem_insert.mpr (Or.inr hx))
      · exact fun x hx => List.mem_append_left _ (he.order_mono x hx)
      · intro x hx
        rcases List.mem_append.mp hx with hx | hx
        · exact (he.fresh x hx).imp id fun hn h => hn (OrdSet.mem_insert.mpr (Or.inr h))
        · exact Or.inr (List.mem_singleton.mp hx ▸ ha)
      · intro x hx
        rcases he.finished x hx with hx | hx
        · rcases OrdSet.mem_insert.mp hx with rfl | hx
          · exact Or.inr (List.mem_append_right _ (List.mem_singleton.mpr rfl))
          · exact Or.inl hx
        · exact Or.inr (List.mem_append_left _ hx)
      · intro x hx
        rcases List.mem_append.mp hx with hx | hx
        · exact hg.seen_of_order x hx
        · exact List.mem_singleton.mp hx ▸ he.seen_mono a (OrdSet.mem_insert.mpr (Or.inl rfl))
      · exact List.nodup_append.mpr ⟨hg.nodup, List.nodup_singleton a, fun x hx y hy hxy =>
          ha2 (by rw [← List.mem_singleton.mp hy, ← hxy]; exact hx)⟩
      · exact List.mem_append_right _ (List.mem_singleton.mpr rfl)

/-- A search lists nothing outside a set that is closed under the successors. -/
theorem postorder_closed {succ : α → List α} {P : α → Prop}
    (hP : ∀ a, P a → ∀ b ∈ succ a, P b) {fuel : Nat} {a : α} {s : Postorder α} (ha : P a)
    (hs : ∀ x ∈ s.order, P x) : ∀ x ∈ (postorder succ fuel a s).order, P x := by
  induction fuel generalizing a s with
  | zero => exact hs
  | succ fuel ih =>
    unfold postorder
    by_cases hseen : a ∈ s.seen
    · rw [if_pos hseen]
      exact hs
    · rw [if_neg hseen]
      have hfold : ∀ x ∈ ((succ a).foldl (fun s b => postorder succ fuel b s)
          { s with seen := s.seen.insert a }).order, P x :=
        List.foldlRecOn (motive := fun t : Postorder α => ∀ x ∈ t.order, P x) _ _ hs
          fun _ ht b hb => ih (hP a ha b hb) ht
      intro x hx
      rcases List.mem_append.mp hx with hx | hx
      · exact hfold x hx
      · exact List.mem_singleton.mp hx ▸ ha

/-- Searching from every vertex of a list, on a graph whose edges all go down in `rank`, lists
    each of them after what it leads to, without repetition. -/
theorem postorderAll_spec {succ : α → List α} {known starts : List α} {fuel : Nat}
    {rank : α → α → Prop} [IsTrans α rank] [Std.Irrefl rank]
    (hrank : ∀ a, ∀ b ∈ succ a, rank b a) (hk : ∀ a, a ∉ known → succ a = [])
    (hf : known.length < fuel) :
    let order := (starts.foldl (fun s a => postorder succ fuel a s) ⟨∅, []⟩).order
    DepsFirst succ order ∧ order.Nodup ∧ ∀ a ∈ starts, a ∈ order := by
  intro order
  have hempty : (⟨∅, []⟩ : Postorder α).Good succ :=
    ⟨fun _ h => absurd h List.not_mem_nil, List.nodup_nil, .nil⟩
  have hfold := Postorder.Ext.foldl hempty
    (show ∀ a ∈ starts, ∀ t, Postorder.Ext ⟨∅, []⟩ t → t.Good succ →
        t.Ext (postorder succ fuel a t) ∧ (postorder succ fuel a t).Good succ ∧
          a ∈ (postorder succ fuel a t).order from fun a _ t ht hg => by
      have hle : unseen known t.seen ≤ known.length := List.length_filter_le _ _
      refine postorder_spec hrank hk (Nat.lt_of_le_of_lt hle hf) hg fun x hx => ?_
      exact absurd (ht.open_mono hx).1 (OrdSet.not_mem_empty x))
  exact ⟨hfold.2.1.depsFirst, hfold.2.1.nodup, hfold.2.2⟩

/-- Searching from vertices of a closed set stays in it. -/
theorem postorderAll_closed {succ : α → List α} {P : α → Prop}
    (hP : ∀ a, P a → ∀ b ∈ succ a, P b) {fuel : Nat} {starts : List α} (hstarts : ∀ a ∈ starts, P a) :
    ∀ x ∈ (starts.foldl (fun s a => postorder succ fuel a s) ⟨∅, []⟩).order, P x := by
  have hnone : ∀ x ∈ (⟨∅, []⟩ : Postorder α).order, P x := fun _ hx => absurd hx List.not_mem_nil
  exact List.foldlRecOn (motive := fun t : Postorder α => ∀ x ∈ t.order, P x) _ _ hnone
    fun _ ht a ha => postorder_closed hP (hstarts a ha) ht

/-! ## Cycle detection -/

inductive Mark where
  | visiting
  | done
  deriving DecidableEq, Repr

/-- The marks of the vertices reached so far, and the finished ones in order. -/
structure Marking (α : Type) [DecidableEq α] where
  marks : IndexMap α Mark
  order : List α

/-- Finish `a` after its dependencies; a dependency that is being visited is a cycle. The
    successors of a vertex may be missing, which is an error of its own. -/
def visit {ε : Type} (deps : α → Option (List α)) (circular missing : α → ε) :
    Nat → α → Marking α → Except ε (Marking α)
  | 0, a, _ => .error (circular a)
  | fuel + 1, a, s =>
    match s.marks.get? a with
    | some .done => .ok s
    | some .visiting => .error (circular a)
    | none =>
      match deps a with
      | none => .error (missing a)
      | some ds => do
        let s ← ds.foldlM (fun s d => visit deps circular missing fuel d s)
          { s with marks := s.marks.insert a .visiting }
        return ⟨s.marks.insert a .done, s.order ++ [a]⟩

namespace Marking

variable {deps : α → Option (List α)} {s s' s'' : Marking α}

/-- The finished vertices are exactly those in the order; they are known, and listed once. -/
structure Good (deps : α → Option (List α)) (s : Marking α) : Prop where
  done_iff : ∀ a, s.marks.get? a = some .done ↔ a ∈ s.order
  known : ∀ a ∈ s.order, (deps a).isSome
  nodup : s.order.Nodup
  depsFirst : DepsFirst (fun a => (deps a).getD []) s.order

/-- What a successful visit does: more vertices are marked, none is left being visited. -/
structure Ext (s s' : Marking α) : Prop where
  order_mono : ∀ a ∈ s.order, a ∈ s'.order
  visiting : ∀ a, s'.marks.get? a = some .visiting ↔ s.marks.get? a = some .visiting
  unmarked : ∀ a, s'.marks.get? a = none → s.marks.get? a = none

theorem Ext.refl (s : Marking α) : Ext s s := ⟨fun _ h => h, fun _ => Iff.rfl, fun _ h => h⟩

theorem Ext.trans (h : Ext s s') (h' : Ext s' s'') : Ext s s'' :=
  ⟨fun a ha => h'.order_mono a (h.order_mono a ha),
    fun a => (h'.visiting a).trans (h.visiting a), fun a ha => h.unmarked a (h'.unmarked a ha)⟩

theorem Ext.foldlM {ε : Type} {f : Marking α → α → Except ε (Marking α)} {bs : List α}
    (h : ∀ b ∈ bs, ∀ t t', t.Good deps → f t b = .ok t' → t.Ext t' ∧ t'.Good deps ∧ b ∈ t'.order)
    (hs : s.Good deps) (hf : bs.foldlM f s = .ok s') :
    s.Ext s' ∧ s'.Good deps ∧ ∀ b ∈ bs, b ∈ s'.order := by
  induction bs generalizing s with
  | nil =>
    obtain rfl : s = s' := Except.ok.inj hf
    exact ⟨.refl s, hs, fun _ hb => absurd hb List.not_mem_nil⟩
  | cons b bs ih =>
    rw [List.foldlM_cons] at hf
    obtain ⟨t, ht, hf⟩ := Control.bind_eq_ok.mp hf
    obtain ⟨he, hg, hb⟩ := h b List.mem_cons_self s t hs ht
    obtain ⟨he', hg', hbs⟩ := ih (fun c hc => h c (List.mem_cons_of_mem _ hc)) hg hf
    refine ⟨he.trans he', hg', fun c hc => ?_⟩
    rcases List.mem_cons.mp hc with rfl | hc
    · exact he'.order_mono c hb
    · exact hbs c hc

/-- Marking an unmarked vertex as being visited finishes nothing. -/
theorem Good.start {a : α} (hs : s.Good deps) (hm : s.marks.get? a = none) :
    Good deps { s with marks := s.marks.insert a .visiting } := by
  refine ⟨fun x => ?_, hs.known, hs.nodup, hs.depsFirst⟩
  rw [IndexMap.get?_insert]
  by_cases hax : (a == x) = true
  · have hx : x ∉ s.order := fun h => by
      rw [← hs.done_iff, ← eq_of_beq hax, hm] at h
      cases h
    rw [if_pos hax]
    exact iff_of_false (fun h => (nomatch h)) hx
  · rw [if_neg hax]
    exact hs.done_iff x

end Marking

section

variable {ε : Type} {deps : α → Option (List α)} {circular missing : α → ε}

/-- A visit that succeeds has finished its vertex after all its dependencies. -/
theorem visit_spec {fuel : Nat} {a : α} {s s' : Marking α}
    (h : visit deps circular missing fuel a s = .ok s') (hs : s.Good deps) :
    s.Ext s' ∧ s'.Good deps ∧ a ∈ s'.order := by
  induction fuel generalizing a s s' with
  | zero => exact absurd h fun h => (nomatch h)
  | succ fuel ih =>
    unfold visit at h
    split at h
    · next hm =>
      obtain rfl : s = s' := Except.ok.inj h
      exact ⟨.refl s, hs, (hs.done_iff a).mp hm⟩
    · exact absurd h fun h => (nomatch h)
    · next hm =>
      split at h
      · exact absurd h fun h => (nomatch h)
      · next ds hds =>
        obtain ⟨s2, hf, h⟩ := Control.bind_eq_ok.mp h
        obtain rfl := Except.ok.inj h
        obtain ⟨he, hg, hdeps⟩ := Marking.Ext.foldlM (fun b _ t t' ht hv => ih hv ht) (hs.start hm) hf
        have ha2 : s2.marks.get? a = some .visiting :=
          (he.visiting a).mpr (by rw [IndexMap.get?_insert, if_pos (beq_self_eq_true a)])
        have hao : a ∉ s2.order := fun h => by
          rw [← hg.done_iff, ha2] at h
          cases h
        refine ⟨⟨?_, fun x => ?_, fun x hx => ?_⟩, ⟨fun x => ?_, fun x hx => ?_, ?_, ?_⟩, ?_⟩
        · exact fun x hx => List.mem_append_left _ (he.order_mono x hx)
        · rw [IndexMap.get?_insert]
          by_cases hax : (a == x) = true
          · rw [if_pos hax, ← eq_of_beq hax, hm]
            exact iff_of_false (fun h => (nomatch h)) (fun h => (nomatch h))
          · have hv := he.visiting x
            rw [IndexMap.get?_insert, if_neg hax] at hv
            rw [if_neg hax, hv]
        · rw [IndexMap.get?_insert] at hx
          by_cases hax : (a == x) = true
          · rw [if_pos hax] at hx
            cases hx
          · rw [if_neg hax] at hx
            have hu := he.unmarked x hx
            rwa [IndexMap.get?_insert, if_neg hax] at hu
        · rw [IndexMap.get?_insert, List.mem_append, List.mem_singleton]
          by_cases hax : (a == x) = true
          · rw [if_pos hax]
            exact iff_of_true rfl (Or.inr (eq_of_beq hax).symm)
          · rw [if_neg hax, hg.done_iff]
            exact ⟨Or.inl, fun h => h.resolve_right fun h => hax (by rw [h]; exact beq_self_eq_true a)⟩
        · rcases List.mem_append.mp hx with hx | hx
          · exact hg.known x hx
          · rw [List.mem_singleton.mp hx, hds]
            rfl
        · exact List.nodup_append.mpr ⟨hg.nodup, List.nodup_singleton a, fun x hx y hy hxy =>
            hao (by rw [← List.mem_singleton.mp hy, ← hxy]; exact hx)⟩
        · refine hg.depsFirst.snoc fun b hb => hdeps b ?_
          rwa [hds] at hb
        · exact List.mem_append_right _ (List.mem_singleton.mpr rfl)

/-- Visiting every vertex of a list succeeds only on a graph where the order exists. -/
theorem visitAll_spec {fuel : Nat} {starts : List α} {s : Marking α}
    (h : starts.foldlM (fun s a => visit deps circular missing fuel a s) ⟨∅, []⟩ = .ok s) :
    s.Good deps ∧ ∀ a ∈ starts, a ∈ s.order := by
  have hempty : Marking.Good deps ⟨∅, []⟩ :=
    ⟨fun a => iff_of_false (fun h => (nomatch h)) List.not_mem_nil,
      fun _ h => absurd h List.not_mem_nil, List.nodup_nil, .nil⟩
  exact (Marking.Ext.foldlM (fun b _ t t' ht hv => visit_spec hv ht) hempty h).2

/-! ### Fuel -/

/-- The number of known vertices without a mark. -/
def unmarked (known : List α) (s : Marking α) : Nat :=
  (known.filter fun a => decide (s.marks.get? a = none)).length

theorem unmarked_mono {known : List α} {s s' : Marking α}
    (h : ∀ a, s'.marks.get? a = none → s.marks.get? a = none) :
    unmarked known s' ≤ unmarked known s := by
  refine (List.monotone_filter_right known fun a ha => ?_).length_le
  exact decide_eq_true (h a (of_decide_eq_true ha))

theorem unmarked_insert_lt {known : List α} {s : Marking α} {a : α} {m : Mark} (ha : a ∈ known)
    (hs : s.marks.get? a = none) :
    unmarked known { s with marks := s.marks.insert a m } < unmarked known s := by
  refine filter_length_lt (fun x hx => ?_) ha ?_ (decide_eq_true hs)
  · rw [decide_eq_true_eq, IndexMap.get?_insert] at hx
    by_cases hax : (a == x) = true
    · rw [if_pos hax] at hx
      cases hx
    · rw [if_neg hax] at hx
      exact decide_eq_true hx
  · rw [decide_eq_false_iff_not, IndexMap.get?_insert, if_pos (beq_self_eq_true a)]
    exact fun h => (nomatch h)

/-- With more fuel than unmarked vertices, the fuel does not matter: a nested visit marks one
    more of them, so the search never runs out. -/
theorem visit_fuel {known : List α} (hk : ∀ a, a ∉ known → deps a = none) {fuel fuel' : Nat}
    {a : α} {s : Marking α} (hs : s.Good deps) (hf : unmarked known s < fuel)
    (hf' : unmarked known s < fuel') :
    visit deps circular missing fuel a s = visit deps circular missing fuel' a s := by
  induction fuel generalizing a s fuel' with
  | zero => omega
  | succ fuel ih =>
    obtain ⟨fuel', rfl⟩ : ∃ n, fuel' = n + 1 := ⟨fuel' - 1, by omega⟩
    unfold visit
    split
    · rfl
    · rfl
    · next hm =>
      split
      · rfl
      · next ds hds =>
        have hak : a ∈ known := by
          by_contra hn
          rw [hk a hn] at hds
          cases hds
        have hlt : unmarked known { s with marks := s.marks.insert a .visiting } < _ :=
          unmarked_insert_lt hak hm
        have hcongr : ds.foldlM (fun s d => visit deps circular missing fuel d s)
              { s with marks := s.marks.insert a .visiting } =
            ds.foldlM (fun s d => visit deps circular missing fuel' d s)
              { s with marks := s.marks.insert a .visiting } := by
          refine Control.foldlM_congr (P := fun t => t.Good deps ∧
            unmarked known t < unmarked known s) ⟨hs.start hm, hlt⟩ fun d _ t ⟨hg, ht⟩ => ?_
          refine ⟨ih hg (by omega) (by omega), fun t' hv => ?_⟩
          obtain ⟨he, hg', _⟩ := visit_spec hv hg
          have hle : unmarked known t' ≤ unmarked known t := unmarked_mono he.unmarked
          exact ⟨hg', by omega⟩
        rw [hcongr]

/-! ### Success -/

/-- `b` is listed among the successors of `a`. -/
def Edge (deps : α → Option (List α)) (a b : α) : Prop := ∃ ds, deps a = some ds ∧ b ∈ ds

/-- On a graph without a cycle where every successor is known, no visit fails: a vertex that is
    being visited leads to the one that is visited next. -/
theorem visit_ok {known : List α} (hk : ∀ a, a ∉ known → deps a = none)
    (hacyclic : ∀ a, ¬ Relation.TransGen (Edge deps) a a)
    (hmet : ∀ a b, Edge deps a b → (deps b).isSome) {fuel : Nat} {a : α} {s : Marking α}
    (hs : s.Good deps) (ha : (deps a).isSome) (hf : unmarked known s < fuel)
    (hopen : ∀ x, s.marks.get? x = some .visiting → Relation.TransGen (Edge deps) x a) :
    ∃ s', visit deps circular missing fuel a s = .ok s' := by
  induction fuel generalizing a s with
  | zero => omega
  | succ fuel ih =>
    unfold visit
    split
    · exact ⟨s, rfl⟩
    · next hm => exact absurd (hopen a hm) (hacyclic a)
    · next hm =>
      split
      · next hds =>
        rw [hds] at ha
        cases ha
      · next ds hds =>
        have hak : a ∈ known := by
          by_contra hn
          rw [hk a hn] at hds
          cases hds
        have hlt : unmarked known { s with marks := s.marks.insert a .visiting } <
            unmarked known s := unmarked_insert_lt hak hm
        have hvisiting : ∀ x, (s.marks.insert a .visiting).get? x = some .visiting →
            x = a ∨ s.marks.get? x = some .visiting := by
          intro x hx
          rw [IndexMap.get?_insert] at hx
          by_cases hax : (a == x) = true
          · exact Or.inl (eq_of_beq hax).symm
          · rw [if_neg hax] at hx
            exact Or.inr hx
        have hfold : ∃ t, ds.foldlM (fun s d => visit deps circular missing fuel d s)
            { s with marks := s.marks.insert a .visiting } = .ok t ∧ t.Good deps ∧
              unmarked known t < unmarked known s ∧
              ∀ x, t.marks.get? x = some .visiting → x = a ∨ s.marks.get? x = some .visiting := by
          refine Control.foldlM_ok ⟨hs.start hm, hlt, hvisiting⟩ fun d hd t ⟨hg, ht, hv⟩ => ?_
          have hedge : Edge deps a d := ⟨ds, hds, hd⟩
          obtain ⟨t', hvisit⟩ := ih hg (hmet a d hedge) (by omega) fun x hx => by
            rcases hv x hx with rfl | hx
            · exact .single hedge
            · exact (hopen x hx).tail hedge
          obtain ⟨he, hg', _⟩ := visit_spec hvisit hg
          have hle : unmarked known t' ≤ unmarked known t := unmarked_mono he.unmarked
          exact ⟨t', hvisit, hg', by omega, fun x hx => hv x ((he.visiting x).mp hx)⟩
        obtain ⟨t, ht, _⟩ := hfold
        rw [ht]
        exact ⟨_, rfl⟩

/-! ### Termination -/

mutual

/-- The visit of a vertex returns: a derivation is a run of the recursion, without fuel. -/
inductive VisitReturns (deps : α → Option (List α)) (circular missing : α → ε) :
    α → Marking α → Except ε (Marking α) → Prop where
  | done {a s} : s.marks.get? a = some .done → VisitReturns deps circular missing a s (.ok s)
  | circular {a s} : s.marks.get? a = some .visiting →
      VisitReturns deps circular missing a s (.error (circular a))
  | missing {a s} : s.marks.get? a = none → deps a = none →
      VisitReturns deps circular missing a s (.error (missing a))
  | finished {a s ds s'} : s.marks.get? a = none → deps a = some ds →
      VisitsReturn deps circular missing ds { s with marks := s.marks.insert a .visiting } (.ok s') →
      VisitReturns deps circular missing a s (.ok ⟨s'.marks.insert a .done, s'.order ++ [a]⟩)
  | failed {a s ds e} : s.marks.get? a = none → deps a = some ds →
      VisitsReturn deps circular missing ds { s with marks := s.marks.insert a .visiting }
        (.error e) → VisitReturns deps circular missing a s (.error e)

/-- The visits of a list of vertices return, one after the other. -/
inductive VisitsReturn (deps : α → Option (List α)) (circular missing : α → ε) :
    List α → Marking α → Except ε (Marking α) → Prop where
  | nil {s} : VisitsReturn deps circular missing [] s (.ok s)
  | cons {a as s s' r} : VisitReturns deps circular missing a s (.ok s') →
      VisitsReturn deps circular missing as s' r → VisitsReturn deps circular missing (a :: as) s r
  | stop {a as s e} : VisitReturns deps circular missing a s (.error e) →
      VisitsReturn deps circular missing (a :: as) s (.error e)

end

/-- A loop of visits that each return returns. -/
theorem VisitsReturn.of_foldlM {f : Marking α → α → Except ε (Marking α)} {P : Marking α → Prop}
    (h : ∀ a s, P s → VisitReturns deps circular missing a s (f s a) ∧ ∀ s', f s a = .ok s' → P s')
    {as : List α} {s : Marking α} (hs : P s) :
    VisitsReturn deps circular missing as s (as.foldlM f s) := by
  induction as generalizing s with
  | nil => exact .nil
  | cons a as ih =>
    obtain ⟨hret, hnext⟩ := h a s hs
    rw [List.foldlM_cons]
    cases hfa : f s a with
    | error e =>
      rw [hfa] at hret
      exact .stop hret
    | ok s' =>
      rw [hfa] at hret
      exact .cons hret (ih (hnext s' hfa))

/-- With more fuel than unmarked vertices, `visit` is a run of the recursion to its end, on a graph
    of any shape. -/
theorem visit_returns {known : List α} (hk : ∀ a, a ∉ known → deps a = none) {fuel : Nat} {a : α}
    {s : Marking α} (hs : s.Good deps) (hf : unmarked known s < fuel) :
    VisitReturns deps circular missing a s (visit deps circular missing fuel a s) := by
  induction fuel generalizing a s with
  | zero => omega
  | succ fuel ih =>
    unfold visit
    split
    · next hm => exact .done hm
    · next hm => exact .circular hm
    · next hm =>
      split
      · next hds => exact .missing hm hds
      · next ds hds =>
        have hak : a ∈ known := by
          by_contra hn
          rw [hk a hn] at hds
          cases hds
        have hlt : unmarked known { s with marks := s.marks.insert a .visiting } <
            unmarked known s := unmarked_insert_lt hak hm
        have hloop : VisitsReturn deps circular missing ds
            { s with marks := s.marks.insert a .visiting }
            (ds.foldlM (fun s d => visit deps circular missing fuel d s)
              { s with marks := s.marks.insert a .visiting }) := by
          refine VisitsReturn.of_foldlM (P := fun t => t.Good deps ∧
            unmarked known t < unmarked known s) (fun d t ⟨hg, ht⟩ => ?_) ⟨hs.start hm, hlt⟩
          refine ⟨ih hg (by omega), fun t' hv => ?_⟩
          obtain ⟨he, hg', _⟩ := visit_spec hv hg
          have hle : unmarked known t' ≤ unmarked known t := unmarked_mono he.unmarked
          exact ⟨hg', by omega⟩
        cases hr : ds.foldlM (fun s d => visit deps circular missing fuel d s)
            { s with marks := s.marks.insert a .visiting } with
        | error e =>
          rw [hr] at hloop
          exact .failed hm hds hloop
        | ok t =>
          rw [hr] at hloop
          exact .finished hm hds hloop

end

end Graphs
