import CapaX.Control.Except

/-
  Writing, reading and converting in three stages: a writer that may have nothing to write for a
  value, a reader of the written form that may refuse it, and a conversion that may fail.
  `Carried` says that a value survives the three as another one. What carries single items carries
  lists of them (`Carried.list`).
-/

namespace Codec

open Control

variable {α β ω ρ ε : Type}

/-- `write` has a written form of `a`, which `read` accepts and `convert` turns into `b`. -/
def Carried (write : α → Option ω) (read : ω → Option ρ) (convert : ρ → Except ε β) (a : α)
    (b : β) : Prop :=
  ∃ written raw, write a = some written ∧ read written = some raw ∧ convert raw = .ok b

variable {write : α → Option ω} {read : ω → Option ρ} {convert : ρ → Except ε β}

theorem option_mapM_cons {f : α → Option ω} {a : α} {w : ω} {as : List α} {ws : List ω}
    (h : f a = some w) (hs : as.mapM f = some ws) : (a :: as).mapM f = some (w :: ws) := by
  rw [List.mapM_cons, h, hs]
  rfl

theorem except_mapM_cons {f : α → Except ε β} {a : α} {b : β} {as : List α} {bs : List β}
    (h : f a = .ok b) (hs : as.mapM f = .ok bs) : (a :: as).mapM f = .ok (b :: bs) := by
  rw [List.mapM_cons, h, hs]
  rfl

/-- A list whose items are carried is carried item by item. -/
theorem Carried.list {f : α → β} {as : List α}
    (h : ∀ a ∈ as, Carried write read convert a (f a)) :
    ∃ ws raws, as.mapM write = some ws ∧ ws.mapM read = some raws ∧
      raws.mapM convert = .ok (as.map f) := by
  induction as with
  | nil => exact ⟨[], [], rfl, rfl, rfl⟩
  | cons a as ih =>
    obtain ⟨w, raw, hw, hr, hc⟩ := h a List.mem_cons_self
    obtain ⟨ws, raws, hws, hrs, hcs⟩ := ih fun x hx => h x (List.mem_cons_of_mem _ hx)
    exact ⟨w :: ws, raw :: raws, option_mapM_cons hw hws, option_mapM_cons hr hrs,
      except_mapM_cons hc hcs⟩

/-- What a loop over an accepted list returns comes item by item from the list. -/
theorem mem_of_mapM_ok {f : α → Except ε β} {as : List α} {bs : List β} (h : as.mapM f = .ok bs)
    {b : β} (hb : b ∈ bs) : ∃ a ∈ as, f a = .ok b := by
  induction as generalizing bs with
  | nil =>
    obtain rfl := Except.ok.inj h
    exact absurd hb List.not_mem_nil
  | cons a as ih =>
    rw [List.mapM_cons] at h
    obtain ⟨b0, h0, h⟩ := bind_eq_ok.mp h
    obtain ⟨bs', hs, h⟩ := bind_eq_ok.mp h
    obtain rfl := Except.ok.inj h
    obtain heq | hb := List.mem_cons.mp hb
    · exact ⟨a, List.mem_cons_self, heq ▸ h0⟩
    · obtain ⟨a', ha', hf⟩ := ih hs hb
      exact ⟨a', List.mem_cons_of_mem _ ha', hf⟩

/-- The same for a reader. -/
theorem mem_of_mapM_some {f : α → Option ρ} {as : List α} {rs : List ρ} (h : as.mapM f = some rs)
    {r : ρ} (hr : r ∈ rs) : ∃ a ∈ as, f a = some r := by
  induction as generalizing rs with
  | nil =>
    obtain rfl := Option.some.inj h
    exact absurd hr List.not_mem_nil
  | cons a as ih =>
    rw [List.mapM_cons] at h
    obtain ⟨r0, h0, h⟩ := Option.bind_eq_some_iff.mp h
    obtain ⟨rs', hs, h⟩ := Option.bind_eq_some_iff.mp h
    obtain rfl := Option.some.inj h
    obtain heq | hr := List.mem_cons.mp hr
    · exact ⟨a, List.mem_cons_self, heq ▸ h0⟩
    · obtain ⟨a', ha', hf⟩ := ih hs hr
      exact ⟨a', List.mem_cons_of_mem _ ha', hf⟩

end Codec
