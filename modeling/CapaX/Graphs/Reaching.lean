import CapaX.Graphs.Worklist
import Mathlib.Data.List.Nodup
import Mathlib.Data.List.Perm.Subperm
import Mathlib.Logic.Relation

/-
  Reaching definitions of one variable, searched backwards from a vertex. The predecessors of a
  vertex come with what the step from them does to the variable (`Effect`); the search goes on
  behind those that keep it. It finds a constant exactly when the definitions it meets agree on it
  (`search_eq_some_iff`), whatever the order of the worklist. The graph may have more edges than the
  search follows: what it finds holds of every path of the graph when it leaves out no edge into the
  vertices behind which the variable is kept (`search_sound`).
-/

namespace Graphs.Reaching

open Worklist Relation

/-- What a step does to the variable: it keeps the value, or gives it a constant or a value that is
    not known. -/
inductive Effect (γ : Type)
  | keeps
  | defines (c : γ)
  | unknown
  deriving DecidableEq

variable {α γ : Type} [DecidableEq γ]

/-! ## The search -/

/-- Look at the predecessors of a vertex. The ones that keep the value join the worklist; a value
    that is not known, or another constant, stops the search. -/
def scan : List (α × Effect γ) → List α → Option γ → Option (List α × Option γ)
  | [], pending, value => some (pending, value)
  | (a, .keeps) :: preds, pending, value => scan preds (a :: pending) value
  | (_, .defines c) :: preds, pending, value =>
    if value.any (· != c) then none else scan preds pending (some c)
  | (_, .unknown) :: _, _, _ => none

/-- Search behind the vertices of the worklist. A vertex without predecessors stops the search, and
    so does the vertex after the last that the limit allows. -/
def search [DecidableEq α] (preds : α → List (α × Effect γ)) (limit : Nat) :
    List α → List α → Option γ → Option γ
  | [], _, value => value
  | a :: pending, visited, value =>
    if a ∈ visited then search preds limit pending visited value
    else if _hlimit : limit < visited.length + 1 then none
    else if preds a = [] then none
    else
      match scan (preds a) pending value with
      | none => none
      | some (pending, value) => search preds limit pending (a :: visited) value
termination_by pending visited => (limit - visited.length, pending.length)
decreasing_by
  · exact Prod.Lex.right _ (Nat.lt_succ_self _)
  · apply Prod.Lex.left
    rw [List.length_cons]
    omega

/-- The vertices that the search goes on to. -/
def kept (preds : α → List (α × Effect γ)) (a : α) : List α :=
  ((preds a).filter fun p => p.2 = .keeps).map (·.1)

/-- The search looks at the vertex, if nothing stops it before. -/
def Searched (preds : α → List (α × Effect γ)) (start : α) : α → Prop :=
  Covered (fun _ => True) (kept preds) {start}

/-- The definitions that the search meets agree on a constant, and nothing stops it. -/
structure Agrees (preds : α → List (α × Effect γ)) (limit : Nat) (start : α) (c : γ) : Prop where
  bounded : ∃ l : List α, l.length ≤ limit ∧ ∀ a, Searched preds start a → a ∈ l
  entered : ∀ a, Searched preds start a → preds a ≠ []
  known : ∀ a, Searched preds start a → ∀ b e, (b, e) ∈ preds a → e = .keeps ∨ e = .defines c
  defined : ∃ a, Searched preds start a ∧ ∃ b, (b, .defines c) ∈ preds a

variable {preds : α → List (α × Effect γ)} {limit : Nat} {start a b : α} {c : γ}

theorem mem_kept : b ∈ kept preds a ↔ (b, .keeps) ∈ preds a := by
  unfold kept
  constructor
  · intro hb
    obtain ⟨⟨b', e⟩, hmem, rfl⟩ := List.mem_map.mp hb
    obtain ⟨hmem, he⟩ := List.mem_filter.mp hmem
    obtain rfl : e = .keeps := of_decide_eq_true he
    exact hmem
  · intro hb
    exact List.mem_map.mpr ⟨_, List.mem_filter.mpr ⟨hb, decide_eq_true rfl⟩, rfl⟩

theorem searched_start : Searched preds start start := .start rfl trivial

theorem Searched.keeps (h : Searched preds start a) (hb : (b, .keeps) ∈ preds a) :
    Searched preds start b := .follow h (mem_kept.mpr hb) trivial

theorem scan_spec {es : List (α × Effect γ)} {pending pending' : List α} {value value' : Option γ}
    (h : scan es pending value = some (pending', value')) :
    (∀ b, b ∈ pending' ↔ (b, .keeps) ∈ es ∨ b ∈ pending) ∧
      (∀ b e, (b, e) ∈ es → e = .keeps ∨ ∃ c, e = .defines c ∧ value' = some c) ∧
      (∀ c, value = some c → value' = some c) ∧
      ∀ c, value' = some c → value = some c ∨ ∃ b, (b, .defines c) ∈ es := by
  induction es generalizing pending value with
  | nil =>
    obtain ⟨rfl, rfl⟩ := Prod.mk.inj (Option.some.inj h)
    simp
  | cons p es ih =>
    obtain ⟨b, _ | d | _⟩ := p
    · obtain ⟨hpending, hknown, hkeep, hfound⟩ := ih h
      refine ⟨fun x => ?_, fun x e hx => ?_, hkeep, fun c hc => ?_⟩
      · rw [hpending, List.mem_cons, List.mem_cons, Prod.mk.injEq]
        tauto
      · obtain hx | hx := List.mem_cons.mp hx
        · exact Or.inl (Prod.mk.inj hx).2
        · exact hknown x e hx
      · exact (hfound c hc).imp_right fun ⟨x, hx⟩ => ⟨x, List.mem_cons_of_mem _ hx⟩
    · unfold scan at h
      split at h
      · cases h
      · next hsame =>
        obtain ⟨hpending, hknown, hkeep, hfound⟩ := ih h
        have hd := hkeep d rfl
        refine ⟨fun x => ?_, fun x e hx => ?_, fun c hc => ?_, fun c hc => ?_⟩
        · rw [hpending, List.mem_cons]
          simp
        · obtain hx | hx := List.mem_cons.mp hx
          · exact Or.inr ⟨d, (Prod.mk.inj hx).2, hd⟩
          · exact hknown x e hx
        · rw [hc, Option.any_some, bne_iff_ne, ne_eq, Decidable.not_not] at hsame
          rw [hsame]
          exact hd
        · rw [hd] at hc
          obtain rfl := Option.some.inj hc
          exact Or.inr ⟨b, List.mem_cons_self⟩
    · cases h

theorem scan_isSome {es : List (α × Effect γ)}
    (hes : ∀ b e, (b, e) ∈ es → e = .keeps ∨ e = .defines c) (pending : List α) {value : Option γ}
    (hvalue : ∀ d, value = some d → d = c) : ∃ r, scan es pending value = some r := by
  induction es generalizing pending value with
  | nil => exact ⟨_, rfl⟩
  | cons p es ih =>
    obtain ⟨b, e⟩ := p
    have hrest : ∀ b e, (b, e) ∈ es → e = .keeps ∨ e = .defines c :=
      fun b e hb => hes b e (List.mem_cons_of_mem _ hb)
    obtain rfl | rfl := hes b e List.mem_cons_self
    · exact ih hrest _ hvalue
    · have hsame : value.any (· != c) = false := by
        cases value with
        | none => rfl
        | some d => simp [hvalue d rfl]
      rw [scan, hsame]
      exact ih hrest _ fun d hd => (Option.some.inj hd).symm

/-! ## What it finds -/

/-- What holds while the search runs. -/
structure Inv (preds : α → List (α × Effect γ)) (start : α) (pending visited : List α)
    (value : Option γ) : Prop where
  frontier : Frontier (fun _ => True) (kept preds) {start} {a | a ∈ visited} pending
  nodup : visited.Nodup
  entered : ∀ a ∈ visited, preds a ≠ []
  known : ∀ a ∈ visited, ∀ b e, (b, e) ∈ preds a →
    e = .keeps ∨ ∃ c, e = .defines c ∧ value = some c
  found : ∀ c, value = some c → ∃ a ∈ visited, ∃ b, (b, .defines c) ∈ preds a

namespace Inv

variable {pending pending' visited : List α} {value value' : Option γ}

theorem init : Inv preds start [start] [] none where
  frontier := by
    have hnone : {a : α | a ∈ []} = (∅ : Set α) := Set.ext fun a => by simp
    rw [hnone, ← insert_empty_eq]
    exact Frontier.empty.restart start
  nodup := List.nodup_nil
  entered := fun a ha => absurd ha List.not_mem_nil
  known := fun a ha => absurd ha List.not_mem_nil
  found := fun c hc => nomatch hc

theorem skip (h : Inv preds start (a :: pending) visited value) (ha : a ∈ visited) :
    Inv preds start pending visited value :=
  ⟨h.frontier.skip fun _ => ha, h.nodup, h.entered, h.known, h.found⟩

theorem enter (h : Inv preds start (a :: pending) visited value) (ha : a ∉ visited)
    (hpreds : preds a ≠ []) (hscan : scan (preds a) pending value = some (pending', value')) :
    Inv preds start pending' (a :: visited) value' := by
  obtain ⟨hpending, hknown, hkeep, hfound⟩ := scan_spec hscan
  have hvisited : {x | x ∈ a :: visited} = insert a {x | x ∈ visited} := by
    ext x
    exact List.mem_cons
  constructor
  · rw [hvisited]
    exact h.frontier.visit trivial fun b => by rw [hpending, mem_kept]
  · exact List.nodup_cons.mpr ⟨ha, h.nodup⟩
  · intro x hx
    obtain rfl | hx := List.mem_cons.mp hx
    · exact hpreds
    · exact h.entered x hx
  · intro x hx b e hb
    obtain rfl | hx := List.mem_cons.mp hx
    · exact hknown b e hb
    · exact (h.known x hx b e hb).imp_right fun ⟨c, he, hc⟩ => ⟨c, he, hkeep c hc⟩
  · intro c hc
    obtain hold | ⟨b, hb⟩ := hfound c hc
    · obtain ⟨x, hx, hdefines⟩ := h.found c hold
      exact ⟨x, List.mem_cons_of_mem _ hx, hdefines⟩
    · exact ⟨a, List.mem_cons_self, b, hb⟩

theorem searched_head (h : Inv preds start (a :: pending) visited value) :
    Searched preds start a :=
  h.frontier.waiting a List.mem_cons_self trivial

end Inv

theorem agrees_of_search [DecidableEq α] {pending visited : List α} {value : Option γ}
    (hinv : Inv preds start pending visited value) (hlength : visited.length ≤ limit)
    (h : search preds limit pending visited value = some c) : Agrees preds limit start c := by
  fun_induction search preds limit pending visited value with
  | case1 visited value =>
    have hvisited (a : α) : a ∈ visited ↔ Searched preds start a := hinv.frontier.visited_iff
    subst h
    constructor
    · exact ⟨visited, hlength, fun a ha => (hvisited a).mpr ha⟩
    · exact fun a ha => hinv.entered a ((hvisited a).mpr ha)
    · intro a ha b e hb
      obtain hkeeps | ⟨d, he, hd⟩ := hinv.known a ((hvisited a).mpr ha) b e hb
      · exact Or.inl hkeeps
      · exact Or.inr (he.trans (congrArg Effect.defines (Option.some.inj hd).symm))
    · obtain ⟨a, ha, hdefines⟩ := hinv.found c rfl
      exact ⟨a, (hvisited a).mp ha, hdefines⟩
  | case2 a pending visited value ha ih => exact ih (hinv.skip ha) hlength h
  | case3 | case4 | case5 => cases h
  | case6 a pending visited value ha hlimit hpreds pending' value' hscan ih =>
    exact ih (hinv.enter ha hpreds hscan) (by rw [List.length_cons]; omega) h

theorem search_of_agrees [DecidableEq α] (hagrees : Agrees preds limit start c)
    {pending visited : List α} {value : Option γ} (hinv : Inv preds start pending visited value) :
    search preds limit pending visited value = some c := by
  have hvalue {pending visited : List α} {value : Option γ}
      (hinv : Inv preds start pending visited value) (d : γ) (hd : value = some d) : d = c := by
    obtain ⟨a, ha, b, hb⟩ := hinv.found d hd
    obtain hkeeps | hdefines := hagrees.known a (hinv.frontier.sound a ha) b _ hb
    · cases hkeeps
    · exact Effect.defines.inj hdefines
  fun_induction search preds limit pending visited value with
  | case1 visited value =>
    obtain ⟨a, ha, b, hb⟩ := hagrees.defined
    obtain hkeeps | ⟨d, hdefines, hd⟩ := hinv.known a (hinv.frontier.visited_iff.mpr ha) b _ hb
    · cases hkeeps
    · rw [Effect.defines.inj hdefines, hd]
  | case2 a pending visited value ha ih => exact ih (hinv.skip ha)
  | case3 a pending visited value ha hlimit =>
    -- the visited vertices and this one are more than the search can meet
    obtain ⟨l, hl, hall⟩ := hagrees.bounded
    have hsub : (a :: visited) ⊆ l := by
      intro x hx
      obtain rfl | hx := List.mem_cons.mp hx
      · exact hall x hinv.searched_head
      · exact hall x (hinv.frontier.sound x hx)
    have hle := (List.subperm_of_subset (List.nodup_cons.mpr ⟨ha, hinv.nodup⟩) hsub).length_le
    rw [List.length_cons] at hle
    omega
  | case4 a pending visited value ha hlimit hpreds =>
    exact absurd hpreds (hagrees.entered a hinv.searched_head)
  | case5 a pending visited value ha hlimit hpreds hscan =>
    obtain ⟨r, hr⟩ := scan_isSome (hagrees.known a hinv.searched_head) pending (hvalue hinv)
    rw [hscan] at hr
    cases hr
  | case6 a pending visited value ha hlimit hpreds pending' value' hscan ih =>
    exact ih (hinv.enter ha hpreds hscan)

/-- The search finds what the definitions that it meets agree on. -/
theorem search_eq_some_iff [DecidableEq α] :
    search preds limit [start] [] none = some c ↔ Agrees preds limit start c :=
  ⟨agrees_of_search Inv.init (Nat.zero_le _), fun h => search_of_agrees h Inv.init⟩

/-! ## The paths of the graph -/

section

variable (edge : α → α → Effect γ → Prop) (entry : α → Prop)

/-- A path of the graph, backwards from where it ends: the effects of its steps, and where it
    begins. -/
inductive Path : α → List (Effect γ) → α → Prop
  | nil (a : α) : Path a [] a
  | cons {a b z : α} {e : Effect γ} {es : List (Effect γ)} (h : edge a b e) (hrest : Path b es z) :
    Path a (e :: es) z

/-- The last step that does not keep the variable defines the constant. Where all steps keep it, the
    path begins at no entry, and it can be extended backwards. -/
def Defined (c : γ) (es : List (Effect γ)) (z : α) : Prop :=
  match es.find? (· ≠ .keeps) with
  | some e => e = .defines c
  | none => ¬entry z ∧ ∃ b e, edge z b e

/-- The vertices from which the variable is kept on some way to a vertex, backwards. -/
def Holds : α → α → Prop := ReflTransGen fun a b => edge a b .keeps

end

variable {edge : α → α → Effect γ → Prop} {entry : α → Prop} {es : List (Effect γ)} {z : α}

theorem defined_keeps : Defined edge entry c (.keeps :: es) z ↔ Defined edge entry c es z := Iff.rfl

theorem defined_defines : Defined edge entry c (.defines c :: es) z := rfl

theorem Searched.holds (hedge : ∀ a b e, (b, e) ∈ preds a → edge a b e)
    (h : Searched preds start a) : Holds edge start a := by
  induction h with
  | start ha _ =>
    obtain rfl := Set.mem_singleton_iff.mp ha
    exact .refl
  | follow _ hb _ ih => exact ih.tail (hedge _ _ _ (mem_kept.mp hb))

/-- A vertex behind which the variable is kept is no entry where every path is defined. -/
theorem Holds.not_entry (h : Holds edge start a)
    (hall : ∀ es z, Path edge start es z → Defined edge entry c es z) : ¬entry a := by
  have hback : ∀ es z, Path edge a es z → Defined edge entry c es z := by
    induction h with
    | refl => exact hall
    | tail _ hkeeps ih => exact fun es z hpath => defined_keeps.mp (ih _ z (.cons hkeeps hpath))
  exact (hback [] a (.nil a)).1

/-- The path is followed as long as the variable is kept; the first step that does not keep it is a
    definition that the search has met. -/
theorem Agrees.defined_of_path (hagrees : Agrees preds limit start c)
    (hall : ∀ a, Searched preds start a → ¬entry a ∧ ∀ b e, edge a b e ↔ (b, e) ∈ preds a)
    (ha : Searched preds start a) (hpath : Path edge a es z) : Defined edge entry c es z := by
  induction hpath with
  | nil a =>
    obtain ⟨hentry, hedge⟩ := hall a ha
    obtain ⟨⟨b, e⟩, hb⟩ := List.exists_mem_of_ne_nil _ (hagrees.entered a ha)
    exact ⟨hentry, b, e, (hedge b e).mpr hb⟩
  | @cons a b z e es hab hrest ih =>
    have hb := ((hall a ha).2 b e).mp hab
    obtain rfl | rfl := hagrees.known a ha b e hb
    · exact defined_keeps.mpr (ih (ha.keeps hb))
    · exact defined_defines

/-- What the search finds holds of all paths of the graph, when the vertices behind which the
    variable is kept are no entries and the search follows every edge into them. -/
theorem search_sound [DecidableEq α] (hedge : ∀ a b e, (b, e) ∈ preds a → edge a b e)
    (hall : ∀ a, Holds edge start a → ¬entry a ∧ ∀ b e, edge a b e → (b, e) ∈ preds a)
    (h : search preds limit [start] [] none = some c) (hpath : Path edge start es z) :
    Defined edge entry c es z := by
  refine (search_eq_some_iff.mp h).defined_of_path (fun a ha => ?_) searched_start hpath
  obtain ⟨hentry, hfollowed⟩ := hall a (ha.holds hedge)
  exact ⟨hentry, fun b e => ⟨hfollowed b e, hedge a b e⟩⟩

end Graphs.Reaching
