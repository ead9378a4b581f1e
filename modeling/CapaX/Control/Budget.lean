import CapaX.Control.Logged
import Mathlib.Algebra.GroupWithZero.Nat

/-
  How many events a run logs, against a budget that it hands on: `Within Allowed budget m left` says
  that what `m` logs and what it leaves (`left`, of its value) is at most the budget, and that `m`
  ends with no fault but an allowed one. A loop over a list stays within what it starts with and
  the costs of its elements (`within_foldRun`).
-/

namespace Control.Logged

variable {φ ε α β : Type}

def Within (Allowed : φ → Prop) (budget : Nat) (m : Logged φ ε α) (left : α → Nat) : Prop :=
  (∀ a, m.outcome = .ok a → m.log.length + left a ≤ budget) ∧
    ∀ fault, m.outcome = .error fault → Allowed fault ∧ m.log.length ≤ budget

variable {Allowed : φ → Prop} {budget budget' : Nat} {m : Logged φ ε α} {left : α → Nat}
  {left' : β → Nat}

theorem within_pure {a : α} (h : left a ≤ budget) :
    Within Allowed budget (pure a : Logged φ ε α) left := by
  refine ⟨fun b hb => ?_, fun fault hfault => (nomatch hfault)⟩
  obtain rfl : a = b := Except.ok.inj hb
  show 0 + left a ≤ budget
  rwa [Nat.zero_add]

theorem within_throwFault {fault : φ} (h : Allowed fault) :
    Within Allowed budget (throwFault fault : Logged φ ε α) left :=
  ⟨fun _ ha => (nomatch ha), fun _ hfault => ⟨Except.error.inj hfault ▸ h, Nat.zero_le _⟩⟩

theorem within_emit {event : ε} :
    Within Allowed (budget + 1) (emit event : Logged φ ε Unit) fun _ => budget :=
  ⟨fun _ _ => Nat.le_of_eq (Nat.add_comm 1 budget), fun _ hfault => (nomatch hfault)⟩

theorem Within.weaken (h : Within Allowed budget m left) (hle : budget ≤ budget') :
    Within Allowed budget' m left :=
  ⟨fun a ha => Nat.le_trans (h.1 a ha) hle, fun fault hfault =>
    ⟨(h.2 fault hfault).1, Nat.le_trans (h.2 fault hfault).2 hle⟩⟩

/-- A budget that the run does not touch is left at its end. -/
theorem Within.frame (h : Within Allowed budget m left) (k : Nat) :
    Within Allowed (budget + k) m fun a => left a + k := by
  refine ⟨fun a ha => ?_, fun fault hfault => ⟨(h.2 fault hfault).1, ?_⟩⟩
  · rw [← Nat.add_assoc]
    exact Nat.add_le_add_right (h.1 a ha) k
  · exact Nat.le_add_right_of_le (h.2 fault hfault).2

/-- What comes next runs on what is left. -/
theorem Within.bind {f : α → Logged φ ε β} (h : Within Allowed budget m left)
    (hf : ∀ a, m.outcome = .ok a → Within Allowed (left a) (f a) left') :
    Within Allowed budget (m >>= f) left' := by
  have hbind : m >>= f = m.andThen f := rfl
  rw [hbind, andThen]
  cases hout : m.outcome with
  | error fault =>
    refine ⟨fun a ha => by contradiction, fun fault' he => ?_⟩
    obtain rfl : fault = fault' := Except.error.inj he
    exact h.2 _ hout
  | ok a =>
    have hfirst := h.1 a hout
    obtain ⟨hvalue, hfault⟩ := hf a hout
    constructor
    · intro b hb
      have hrest := hvalue b hb
      simp only [List.length_append]
      omega
    · intro fault he
      obtain ⟨hallowed, hrest⟩ := hfault fault he
      refine ⟨hallowed, ?_⟩
      simp only [List.length_append]
      omega

theorem within_foldRun {f : α → β → Logged φ ε α} {cost : β → Nat} {bs : List β}
    (h : ∀ a, ∀ b ∈ bs, Within Allowed (left a + cost b) (f a b) left) (a : α) :
    Within Allowed (left a + (bs.map cost).sum) (foldRun f a bs) left := by
  induction bs generalizing a with
  | nil => exact within_pure (Nat.le_refl _)
  | cons b bs ih =>
    have hfirst := (h a b List.mem_cons_self).frame (bs.map cost).sum
    rw [List.map_cons, List.sum_cons, ← Nat.add_assoc]
    exact hfirst.bind fun a' _ => ih (fun a c hc => h a c (List.mem_cons_of_mem b hc)) a'

end Control.Logged
