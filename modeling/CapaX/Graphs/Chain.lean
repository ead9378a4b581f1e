import Mathlib.Data.List.Nodup
import Mathlib.Data.List.Perm.Subperm
import Mathlib.Logic.Relation

/-
  Chains of links: `next` sends a vertex to the one it points at, and a loop goes from link to link
  until there is none. `follow` lists the vertices on the way. On finitely many links the loop
  comes to an end exactly when no vertex on the way leads back to itself (`returns_iff`), and then
  it meets no vertex twice (`follow_nodup`).
-/

namespace Graphs

variable {α : Type} (next : α → Option α)

/-- The vertices from `a` to the end of the chain; `none` when the fuel ends before the chain. -/
def follow : Nat → α → Option (List α)
  | 0, _ => none
  | fuel + 1, a =>
    match next a with
    | none => some [a]
    | some b => (follow fuel b).map (List.cons a)

/-- `a` points at `b`. -/
def Link (a b : α) : Prop := next a = some b

/-- No vertex on the way from `a` leads back to itself. -/
def AcyclicFrom (a : α) : Prop :=
  ∀ b, Relation.ReflTransGen (Link next) a b → ¬ Relation.TransGen (Link next) b b

/-- The vertices from `a` on are those of `l`, and there is no link from the last one. -/
inductive ChainFrom : α → List α → Prop
  | last {a : α} (h : next a = none) : ChainFrom a [a]
  | link {a b : α} {l : List α} (h : next a = some b) (hl : ChainFrom b l) : ChainFrom a (a :: l)

variable {next} {a b : α} {l : List α} {fuel : Nat}

theorem follow_succ_some (h : next a = some b) :
    follow next (fuel + 1) a = (follow next fuel b).map (List.cons a) := by
  rw [follow, h]

theorem follow_link (h : Link next a b) {l : List α} (hl : follow next fuel a = some l) :
    ∃ fuel' l', fuel = fuel' + 1 ∧ follow next fuel' b = some l' ∧ l = a :: l' := by
  cases fuel with
  | zero => cases hl
  | succ fuel =>
    rw [follow_succ_some h] at hl
    obtain ⟨l', hl', rfl⟩ := Option.map_eq_some_iff.mp hl
    exact ⟨fuel, l', rfl, hl', rfl⟩

/-- From a vertex further on less fuel is needed. -/
theorem follow_transGen (h : Relation.TransGen (Link next) a b) (hl : follow next fuel a = some l) :
    ∃ fuel' l', fuel' < fuel ∧ follow next fuel' b = some l' := by
  induction h with
  | single hab =>
    obtain ⟨fuel', l', rfl, hl', _⟩ := follow_link hab hl
    exact ⟨fuel', l', Nat.lt_succ_self fuel', hl'⟩
  | tail _ hbc ih =>
    obtain ⟨fuel', l', hlt, hl'⟩ := ih
    obtain ⟨fuel'', l'', rfl, hl'', _⟩ := follow_link hbc hl'
    exact ⟨fuel'', l'', by omega, hl''⟩

/-- A chain that ends does not lead back to where it starts. -/
theorem not_cycle (hl : follow next fuel a = some l) : ¬ Relation.TransGen (Link next) a a := by
  induction fuel using Nat.strongRecOn generalizing l with
  | ind fuel ih =>
    intro hcycle
    obtain ⟨fuel', l', hlt, hl'⟩ := follow_transGen hcycle hl
    exact ih fuel' hlt hl' hcycle

theorem acyclicFrom_of_follow (hl : follow next fuel a = some l) : AcyclicFrom next a := by
  intro b hab
  rcases Relation.reflTransGen_iff_eq_or_transGen.mp hab with rfl | hab
  · exact not_cycle hl
  · obtain ⟨fuel', l', _, hl'⟩ := follow_transGen hab hl
    exact not_cycle hl'

theorem AcyclicFrom.link (h : AcyclicFrom next a) (hab : Link next a b) : AcyclicFrom next b :=
  fun c hbc => h c (.head hab hbc)

theorem follow_reaches (hl : follow next fuel a = some l) :
    ∀ x ∈ l, Relation.ReflTransGen (Link next) a x := by
  induction fuel generalizing a l with
  | zero => cases hl
  | succ fuel ih =>
    cases hnext : next a with
    | none =>
      rw [follow, hnext] at hl
      obtain rfl := Option.some.inj hl
      intro x hx
      rw [List.mem_singleton.mp hx]
    | some b =>
      rw [follow_succ_some hnext] at hl
      obtain ⟨l', hl', rfl⟩ := Option.map_eq_some_iff.mp hl
      intro x hx
      rcases List.mem_cons.mp hx with rfl | hx
      · exact .refl
      · exact .head hnext (ih hl' x hx)

/-- The way to the end meets no vertex twice. -/
theorem follow_nodup (hl : follow next fuel a = some l) : l.Nodup := by
  induction fuel generalizing a l with
  | zero => cases hl
  | succ fuel ih =>
    cases hnext : next a with
    | none =>
      rw [follow, hnext] at hl
      obtain rfl := Option.some.inj hl
      exact List.nodup_singleton a
    | some b =>
      have hcycle := not_cycle hl
      rw [follow_succ_some hnext] at hl
      obtain ⟨l', hl', rfl⟩ := Option.map_eq_some_iff.mp hl
      refine List.nodup_cons.mpr ⟨fun ha => hcycle ?_, ih hl'⟩
      exact Relation.TransGen.head'_iff.mpr ⟨b, hnext, follow_reaches hl' a ha⟩

/-- A chain the fuel does not reach the end of holds as many vertices with a link as there was
    fuel. -/
theorem follow_none (h : AcyclicFrom next a) (hnone : follow next fuel a = none) :
    ∃ l : List α, l.length = fuel ∧ l.Nodup ∧
      ∀ x ∈ l, Relation.ReflTransGen (Link next) a x ∧ (next x).isSome := by
  induction fuel generalizing a with
  | zero => exact ⟨[], rfl, List.nodup_nil, fun _ hx => absurd hx List.not_mem_nil⟩
  | succ fuel ih =>
    cases hnext : next a with
    | none =>
      rw [follow, hnext] at hnone
      cases hnone
    | some b =>
      rw [follow_succ_some hnext, Option.map_eq_none_iff] at hnone
      obtain ⟨l, hlen, hnodup, hl⟩ := ih (h.link hnext) hnone
      refine ⟨a :: l, by rw [List.length_cons, hlen], List.nodup_cons.mpr ⟨fun ha => ?_, hnodup⟩, ?_⟩
      · exact h a .refl (Relation.TransGen.head'_iff.mpr ⟨b, hnext, (hl a ha).1⟩)
      · intro x hx
        rcases List.mem_cons.mp hx with rfl | hx
        · exact ⟨.refl, by rw [hnext]; rfl⟩
        · exact ⟨.head hnext (hl x hx).1, (hl x hx).2⟩

/-- More fuel than there are links reaches the end of every chain without a cycle. -/
theorem follow_of_acyclic {links : List α} (hlinks : ∀ x, (next x).isSome → x ∈ links)
    (h : AcyclicFrom next a) (hf : links.length < fuel) : ∃ l, follow next fuel a = some l := by
  cases hl : follow next fuel a with
  | some l => exact ⟨l, rfl⟩
  | none =>
    obtain ⟨l, hlen, hnodup, hsome⟩ := follow_none h hl
    have hle : l.length ≤ links.length :=
      (hnodup.subperm fun x hx => hlinks x (hsome x hx).2).length_le
    omega

theorem chainFrom_of_follow (hl : follow next fuel a = some l) : ChainFrom next a l := by
  induction fuel generalizing a l with
  | zero => cases hl
  | succ fuel ih =>
    cases hnext : next a with
    | none =>
      rw [follow, hnext] at hl
      obtain rfl := Option.some.inj hl
      exact .last hnext
    | some b =>
      rw [follow_succ_some hnext] at hl
      obtain ⟨l', hl', rfl⟩ := Option.map_eq_some_iff.mp hl
      exact .link hnext (ih hl')

theorem ChainFrom.unique {l' : List α} (h : ChainFrom next a l) (h' : ChainFrom next a l') :
    l = l' := by
  induction h generalizing l' with
  | last hnext =>
    obtain hnext' | ⟨hnext', -⟩ := h'
    · rfl
    · cases hnext.symm.trans hnext'
  | link hnext _ ih =>
    obtain hnext' | ⟨hnext', hl'⟩ := h'
    · cases hnext.symm.trans hnext'
    · obtain rfl := Option.some.inj (hnext.symm.trans hnext')
      rw [ih hl']

/-- With finitely many links, the loop ends exactly when no cycle is on its way. -/
theorem returns_iff {links : List α} (hlinks : ∀ x, (next x).isSome → x ∈ links) :
    (∃ fuel l, follow next fuel a = some l) ↔ AcyclicFrom next a :=
  ⟨fun ⟨_, _, hl⟩ => acyclicFrom_of_follow hl,
    fun h => ⟨links.length + 1, follow_of_acyclic hlinks h (Nat.lt_succ_self _)⟩⟩

end Graphs
