import Mathlib.Data.Finite.Prod
import Mathlib.Data.Set.Finite.List
import Mathlib.Logic.Relation
import Mathlib.Order.WellFounded

/-
  Recursive procedures with a bounded stack. `Completes` says that a call at `a` comes back when
  the stack is deep enough: the call itself is sound and every call it makes comes back. Some
  depth is enough exactly when every call on the way is sound and no chain of calls goes on for
  ever (`exists_completes_iff`), which over finitely many arguments means that no argument leads
  back to itself (`acc_of_acyclic`).
-/

namespace Graphs

open Relation

section

variable {α : Type} (Calls : α → α → Prop) (Sound : α → Prop)

/-- A call at `a` comes back within the depth. -/
def Completes : Nat → α → Prop
  | 0, _ => False
  | depth + 1, a => Sound a ∧ ∀ b, Calls a b → Completes depth b

variable {Calls Sound} {a b : α} {depth depth' : Nat}

theorem completes_succ (h : Completes Calls Sound depth a) :
    Completes Calls Sound (depth + 1) a := by
  induction depth generalizing a with
  | zero => exact h.elim
  | succ depth ih => exact ⟨h.1, fun b hb => ih (h.2 b hb)⟩

theorem completes_mono (h : Completes Calls Sound depth a) (hle : depth ≤ depth') :
    Completes Calls Sound depth' a := by
  induction hle with
  | refl => exact h
  | step _ ih => exact completes_succ ih

theorem completes_acc (h : Completes Calls Sound depth a) : Acc (fun b a => Calls a b) a := by
  induction depth generalizing a with
  | zero => exact h.elim
  | succ depth ih => exact ⟨a, fun b hb => ih (h.2 b hb)⟩

/-- Where every chain ends nothing leads back to itself. -/
theorem acyclic_of_acc (h : Acc (fun b a => Calls a b) a) : ¬ TransGen Calls a a := by
  induction h with
  | intro a _ ih =>
    intro hcycle
    obtain ⟨b, hab, hba⟩ := TransGen.head'_iff.mp hcycle
    exact ih b hab (TransGen.tail' hba hab)

theorem completes_reached (h : Completes Calls Sound depth a) (hr : ReflTransGen Calls a b) :
    ∃ depth', Completes Calls Sound depth' b := by
  induction hr with
  | refl => exact ⟨depth, h⟩
  | tail _ hbc ih =>
    obtain ⟨depth', hb⟩ := ih
    cases depth' with
    | zero => exact hb.elim
    | succ depth' => exact ⟨depth', hb.2 _ hbc⟩

/-- Finitely many calls that come back come back within one depth. -/
theorem exists_common_depth {p : α → Prop} {l : List α}
    (h : ∀ b ∈ l, p b → ∃ depth, Completes Calls Sound depth b) :
    ∃ depth, ∀ b ∈ l, p b → Completes Calls Sound depth b := by
  induction l with
  | nil => exact ⟨0, fun b hb => absurd hb List.not_mem_nil⟩
  | cons c l ih =>
    obtain ⟨depth, hdepth⟩ := ih fun b hb => h b (List.mem_cons_of_mem _ hb)
    by_cases hc : p c
    · obtain ⟨depth', hc'⟩ := h c List.mem_cons_self hc
      refine ⟨max depth depth', fun b hb hab => ?_⟩
      rcases List.mem_cons.mp hb with rfl | hb
      · exact completes_mono hc' (Nat.le_max_right _ _)
      · exact completes_mono (hdepth b hb hab) (Nat.le_max_left _ _)
    · refine ⟨depth, fun b hb hab => ?_⟩
      rcases List.mem_cons.mp hb with rfl | hb
      · exact absurd hab hc
      · exact hdepth b hb hab

/-- With finitely many calls from each argument, a depth is enough when every chain ends. -/
theorem exists_completes_iff (hfin : ∀ a, ∃ l : List α, ∀ b, Calls a b → b ∈ l) :
    (∃ depth, Completes Calls Sound depth a) ↔
      Acc (fun b a => Calls a b) a ∧ ∀ b, ReflTransGen Calls a b → Sound b := by
  constructor
  · intro ⟨depth, h⟩
    refine ⟨completes_acc h, fun b hr => ?_⟩
    obtain ⟨depth', hb⟩ := completes_reached h hr
    cases depth' with
    | zero => exact hb.elim
    | succ depth' => exact hb.1
  · intro ⟨hacc, hsound⟩
    induction hacc with
    | intro a _ ih =>
      obtain ⟨l, hl⟩ := hfin a
      obtain ⟨depth, hdepth⟩ : ∃ depth, ∀ b ∈ l, Calls a b → Completes Calls Sound depth b :=
        exists_common_depth fun b _ hb => ih b hb fun c hc => hsound c (.head hb hc)
      exact ⟨depth + 1, hsound a .refl, fun b hb => hdepth b (hl b hb) hb⟩

/-- Chains inside a finite set end when nothing in it leads back to itself. -/
theorem acc_of_acyclic {s : Set α} (hs : s.Finite) (hclosed : ∀ a ∈ s, ∀ b, Calls a b → b ∈ s)
    (hacyclic : ∀ a ∈ s, ¬ TransGen Calls a a) (ha : a ∈ s) : Acc (fun b a => Calls a b) a := by
  have hfinite : Finite s := hs
  let below : s → s → Prop := fun b a => TransGen Calls a.1 b.1
  have htrans : IsTrans s below := ⟨fun _ _ _ hab hbc => hbc.trans hab⟩
  have hirrefl : Std.Irrefl below := ⟨fun a => hacyclic a.1 a.2⟩
  have hwf : WellFounded below := Finite.wellFounded_of_trans_of_irrefl below
  have hacc : ∀ x : s, Acc (fun b a => Calls a b) x.1 := fun x => by
    induction x using hwf.induction with
    | _ x ih => exact ⟨x.1, fun b hb => ih ⟨b, hclosed x.1 x.2 b hb⟩ (.single hb)⟩
  exact hacc ⟨a, ha⟩

/-- Where chains end, one of them ends at an element without calls. -/
theorem exists_end (h : Acc (fun b a => Calls a b) a) :
    ∃ b, ReflTransGen Calls a b ∧ ∀ c, ¬ Calls b c := by
  induction h with
  | intro a _ ih =>
    by_cases hnone : ∀ c, ¬ Calls a c
    · exact ⟨a, .refl, hnone⟩
    · obtain ⟨c, hac⟩ := not_forall_not.mp hnone
      obtain ⟨b, hcb, hlast⟩ := ih c hac
      exact ⟨b, .head hac hcb, hlast⟩

/-- A chain all of whose calls are plain, or that makes a call that is not. -/
theorem plain_or_not (Plain : α → α → Prop) (h : TransGen Calls a b) :
    TransGen Plain a b ∨
      ∃ c d, ReflTransGen Calls a c ∧ Calls c d ∧ ¬ Plain c d ∧ ReflTransGen Calls d b := by
  induction h with
  | @single b hab =>
    by_cases hp : Plain a b
    · exact Or.inl (.single hp)
    · exact Or.inr ⟨a, b, .refl, hab, hp, .refl⟩
  | @tail b c hab hbc ih =>
    rcases ih with hplain | ⟨x, y, hax, hxy, hnot, hyb⟩
    · by_cases hp : Plain b c
      · exact Or.inl (hplain.tail hp)
      · exact Or.inr ⟨b, c, hab.to_reflTransGen, hbc, hp, .refl⟩
    · exact Or.inr ⟨x, y, hax, hxy, hnot, hyb.tail hbc⟩

end

end Graphs
