import Mathlib.Data.List.Basic

/-
  Computations that may fail: taking apart a sequence of them by its outcome
  (`bind_eq_ok`, `bind_eq_error`), and loops over lists whose body may fail.
-/

namespace Control

variable {ε α β : Type}

theorem bind_eq_ok {x : Except ε α} {f : α → Except ε β} {b : β} :
    x >>= f = .ok b ↔ ∃ a, x = .ok a ∧ f a = .ok b := by
  cases x with
  | error e => exact ⟨fun h => (nomatch h), fun ⟨_, h, _⟩ => (nomatch h)⟩
  | ok a => exact ⟨fun h => ⟨a, rfl, h⟩, fun ⟨_, ha, h⟩ => by rw [Except.ok.inj ha]; exact h⟩

theorem bind_eq_error {x : Except ε α} {f : α → Except ε β} {e : ε} :
    x >>= f = .error e ↔ x = .error e ∨ ∃ a, x = .ok a ∧ f a = .error e := by
  cases x with
  | error e' =>
    exact ⟨fun h => Or.inl (by rw [Except.error.inj h]), fun h => by
      rcases h with h | ⟨_, h, _⟩
      · rw [Except.error.inj h]; rfl
      · cases h⟩
  | ok a =>
    exact ⟨fun h => Or.inr ⟨a, rfl, h⟩, fun h => by
      rcases h with h | ⟨_, ha, h⟩
      · cases h
      · rw [Except.ok.inj ha]; exact h⟩

theorem map_eq_ok {x : Except ε α} {f : α → β} {b : β} (h : x.map f = .ok b) :
    ∃ a, x = .ok a ∧ f a = b := by
  cases x with
  | error e => cases h
  | ok a => exact ⟨a, rfl, Except.ok.inj h⟩

theorem mapError_eq_ok {ε' : Type} {x : Except ε α} {f : ε → ε'} {a : α} :
    x.mapError f = .ok a ↔ x = .ok a := by
  cases x with
  | error e => exact ⟨fun h => (nomatch h), fun h => (nomatch h)⟩
  | ok b => exact ⟨fun h => congrArg _ (Except.ok.inj h), fun h => congrArg _ (Except.ok.inj h)⟩

/-- A loop whose steps all succeed from every state an invariant allows succeeds. -/
theorem foldlM_ok {f : β → α → Except ε β} {P : β → Prop} {l : List α} {b : β} (hb : P b)
    (h : ∀ a ∈ l, ∀ b, P b → ∃ b', f b a = .ok b' ∧ P b') :
    ∃ b', l.foldlM f b = .ok b' ∧ P b' := by
  induction l generalizing b with
  | nil => exact ⟨b, rfl, hb⟩
  | cons a l ih =>
    obtain ⟨b1, h1, hb1⟩ := h a List.mem_cons_self b hb
    obtain ⟨b2, h2, hb2⟩ := ih hb1 fun c hc => h c (List.mem_cons_of_mem _ hc)
    exact ⟨b2, by rw [List.foldlM_cons, h1]; exact h2, hb2⟩

/-- A loop of checks that succeeds has passed each check. -/
theorem forM_ok {f : α → Except ε Unit} {l : List α} (h : l.forM f = .ok ()) :
    ∀ a ∈ l, f a = .ok () := by
  induction l with
  | nil => exact fun _ ha => absurd ha List.not_mem_nil
  | cons a l ih =>
    have h : (f a >>= fun _ => l.forM f) = .ok () := h
    obtain ⟨_, ha, hl⟩ := bind_eq_ok.mp h
    intro b hb
    rcases List.mem_cons.mp hb with rfl | hb
    · exact ha
    · exact ih hl b hb

/-- A loop of checks that all pass succeeds. -/
theorem forM_of_ok {f : α → Except ε Unit} {l : List α}
    (h : ∀ a ∈ l, f a = .ok ()) : l.forM f = .ok () := by
  induction l with
  | nil => rfl
  | cons a l ih =>
    show (f a >>= fun _ => l.forM f) = _
    rw [h a List.mem_cons_self]
    exact ih fun b hb => h b (List.mem_cons_of_mem _ hb)

/-- What every successful step preserves, a successful loop preserves. -/
theorem foldlM_inv {f : β → α → Except ε β} {P : β → Prop} {l : List α} {b b' : β}
    (hf : l.foldlM f b = .ok b') (hb : P b)
    (h : ∀ a ∈ l, ∀ b b', P b → f b a = .ok b' → P b') : P b' := by
  induction l generalizing b with
  | nil => exact Except.ok.inj hf ▸ hb
  | cons a l ih =>
    rw [List.foldlM_cons] at hf
    obtain ⟨b1, h1, hf⟩ := bind_eq_ok.mp hf
    exact ih hf (h a List.mem_cons_self b b1 hb h1) fun c hc => h c (List.mem_cons_of_mem _ hc)

/-- What holds of no items and the start, and goes on with every step, holds of all items and the
    end. -/
theorem foldlM_visited {f : β → α → Except ε β} {P : List α → β → Prop} {l : List α} {b b' : β}
    (hf : l.foldlM f b = .ok b') (hb : P [] b)
    (h : ∀ seen, ∀ a ∈ l, ∀ b b', P seen b → f b a = .ok b' → P (seen ++ [a]) b') : P l b' := by
  have hgo : ∀ (rest seen : List α) (b : β), (∀ a ∈ rest, a ∈ l) → P seen b →
      rest.foldlM f b = .ok b' → P (seen ++ rest) b' := by
    intro rest
    induction rest with
    | nil =>
      intro seen b _ hb hf
      rw [List.append_nil, ← Except.ok.inj hf]
      exact hb
    | cons a rest ih =>
      intro seen b hmem hb hf
      rw [List.foldlM_cons] at hf
      obtain ⟨b1, h1, hf⟩ := bind_eq_ok.mp hf
      have hnext := ih (seen ++ [a]) b1 (fun x hx => hmem x (List.mem_cons_of_mem _ hx))
        (h seen a (hmem a List.mem_cons_self) b b1 hb h1) hf
      rwa [List.append_assoc] at hnext
  exact hgo l [] b (fun _ ha => ha) hb hf

/-- A property each step may only add to holds after a loop when it held before, or when some
    step added it. -/
theorem foldlM_exists {f : β → α → Except ε β} {P : β → Prop} {Q : α → Prop} {l : List α}
    {b b' : β} (hf : l.foldlM f b = .ok b')
    (h : ∀ a ∈ l, ∀ b b', f b a = .ok b' → (P b' ↔ P b ∨ Q a)) :
    P b' ↔ P b ∨ ∃ a ∈ l, Q a := by
  induction l generalizing b with
  | nil =>
    rw [← Except.ok.inj hf]
    exact (or_iff_left fun ⟨_, ha, _⟩ => List.not_mem_nil ha).symm
  | cons a l ih =>
    rw [List.foldlM_cons] at hf
    obtain ⟨b1, h1, hf⟩ := bind_eq_ok.mp hf
    rw [ih hf fun c hc => h c (List.mem_cons_of_mem _ hc), h a List.mem_cons_self b b1 h1,
      or_assoc, List.exists_mem_cons_iff]

/-- What a run that succeeds gives is the value that it has. -/
theorem exists_eq_ok_iff {x : Except ε α} {a : α} {P : α → Prop} (h : x = .ok a) :
    (∃ b, x = .ok b ∧ P b) ↔ P a := by
  constructor
  · intro hexists
    obtain ⟨b, hb, hP⟩ := hexists
    obtain rfl := Except.ok.inj (h.symm.trans hb)
    exact hP
  · exact fun hP => ⟨a, h, hP⟩

/-- A loop that succeeds has taken a successful step at each item. -/
theorem foldlM_step {f : β → α → Except ε β} {l : List α} {b b' : β}
    (hf : l.foldlM f b = .ok b') {a : α} (ha : a ∈ l) : ∃ c c', f c a = .ok c' := by
  induction l generalizing b with
  | nil => exact absurd ha List.not_mem_nil
  | cons x l ih =>
    rw [List.foldlM_cons] at hf
    obtain ⟨b1, h1, hf⟩ := bind_eq_ok.mp hf
    rcases List.mem_cons.mp ha with rfl | ha
    · exact ⟨b, b1, h1⟩
    · exact ih hf ha

/-- Two loops whose steps agree on every state an invariant allows agree. -/
theorem foldlM_congr {f g : β → α → Except ε β} {P : β → Prop} {l : List α} {b : β} (hb : P b)
    (h : ∀ a ∈ l, ∀ b, P b → f b a = g b a ∧ ∀ b', f b a = .ok b' → P b') :
    l.foldlM f b = l.foldlM g b := by
  induction l generalizing b with
  | nil => rfl
  | cons a l ih =>
    obtain ⟨he, hp⟩ := h a List.mem_cons_self b hb
    rw [List.foldlM_cons, List.foldlM_cons, ← he]
    cases hfa : f b a with
    | error e => rfl
    | ok b' => exact ih (hp b' hfa) fun c hc => h c (List.mem_cons_of_mem _ hc)

/-- A loop that collects what it computes for each element. -/
theorem mapM_eq_ok {f : α → Except ε β} {l : List α} {bs : List β} (h : l.mapM f = .ok bs) :
    List.Forall₂ (fun a b => f a = .ok b) l bs := by
  induction l generalizing bs with
  | nil =>
    obtain rfl := Except.ok.inj h
    exact .nil
  | cons a l ih =>
    rw [List.mapM_cons] at h
    obtain ⟨b, hb, h⟩ := bind_eq_ok.mp h
    obtain ⟨rest, hrest, h⟩ := bind_eq_ok.mp h
    obtain rfl := Except.ok.inj h
    exact .cons hb (ih hrest)

/-- What such a loop collects was computed for one of the elements. -/
theorem exists_of_mem_mapM {f : α → Except ε β} {l : List α} {bs : List β} (h : l.mapM f = .ok bs)
    {b : β} (hb : b ∈ bs) : ∃ a ∈ l, f a = .ok b := by
  have hall := mapM_eq_ok h
  clear h
  induction hall with
  | nil => exact absurd hb List.not_mem_nil
  | @cons a b' l bs hab _ ih =>
    obtain rfl | hb := List.mem_cons.mp hb
    · exact ⟨a, List.mem_cons_self, hab⟩
    · obtain ⟨a', ha', hab'⟩ := ih hb
      exact ⟨a', List.mem_cons_of_mem _ ha', hab'⟩

theorem mapM_congr {f g : α → Except ε β} {l : List α} (h : ∀ a ∈ l, f a = g a) :
    l.mapM f = l.mapM g := by
  induction l with
  | nil => rfl
  | cons a l ih =>
    rw [List.mapM_cons, List.mapM_cons, h a List.mem_cons_self,
      ih fun b hb => h b (List.mem_cons_of_mem _ hb)]

/-- A loop whose end has a property that no step takes away had it all along, and keeps what each
    step keeps while it has it. -/
theorem foldlM_within {f : β → α → Except ε β} {P Q : β → Prop} {l : List α} {b b' : β}
    (hf : l.foldlM f b = .ok b') (hback : ∀ a ∈ l, ∀ b b', f b a = .ok b' → Q b' → Q b)
    (hstep : ∀ a ∈ l, ∀ b b', f b a = .ok b' → Q b' → P b → P b') (hq : Q b') :
    Q b ∧ (P b → P b') := by
  induction l generalizing b with
  | nil =>
    rw [Except.ok.inj hf]
    exact ⟨hq, id⟩
  | cons a l ih =>
    rw [List.foldlM_cons] at hf
    obtain ⟨b1, h1, hf⟩ := bind_eq_ok.mp hf
    obtain ⟨hq1, hp1⟩ := ih hf (fun c hc => hback c (List.mem_cons_of_mem _ hc))
      fun c hc => hstep c (List.mem_cons_of_mem _ hc)
    exact ⟨hback a List.mem_cons_self b b1 h1 hq1, fun hp =>
      hp1 (hstep a List.mem_cons_self b b1 h1 hq1 hp)⟩

/-! ## Success alone -/

def Succeeds (x : Except ε α) : Prop := ∃ a, x = .ok a

@[simp] theorem succeeds_ok (a : α) : Succeeds (.ok a : Except ε α) := ⟨a, rfl⟩

@[simp] theorem not_succeeds_error (e : ε) : ¬ Succeeds (.error e : Except ε α) :=
  fun ⟨_, h⟩ => (nomatch h)

theorem succeeds_bind {x : Except ε α} {f : α → Except ε β} :
    Succeeds (x >>= f) ↔ ∃ a, x = .ok a ∧ Succeeds (f a) := by
  constructor
  · intro ⟨b, h⟩
    obtain ⟨a, ha, hb⟩ := bind_eq_ok.mp h
    exact ⟨a, ha, b, hb⟩
  · intro ⟨a, ha, b, hb⟩
    exact ⟨b, bind_eq_ok.mpr ⟨a, ha, hb⟩⟩

/-- A sequence succeeds when both parts do, whatever the first one returns. -/
theorem succeeds_bind_const {x : Except ε α} {f : α → Except ε β} {p : Prop}
    (h : ∀ a, x = .ok a → (Succeeds (f a) ↔ p)) : Succeeds (x >>= f) ↔ Succeeds x ∧ p := by
  rw [succeeds_bind]
  constructor
  · intro ⟨a, ha, hf⟩
    exact ⟨⟨a, ha⟩, (h a ha).mp hf⟩
  · intro ⟨⟨a, ha⟩, hp⟩
    exact ⟨a, ha, (h a ha).mpr hp⟩

/-- A sequence whose second part always succeeds. -/
theorem succeeds_bind_left {x : Except ε α} {f : α → Except ε β} (h : ∀ a, Succeeds (f a)) :
    Succeeds (x >>= f) ↔ Succeeds x :=
  (succeeds_bind_const fun a _ => iff_of_true (h a) trivial).trans (and_iff_left trivial)

theorem succeeds_mapError {ε' : Type} {x : Except ε α} {f : ε → ε'} :
    Succeeds (x.mapError f) ↔ Succeeds x := exists_congr fun _ => mapError_eq_ok

theorem succeeds_mapM {f : α → Except ε β} {l : List α} :
    Succeeds (l.mapM f) ↔ ∀ a ∈ l, Succeeds (f a) := by
  induction l with
  | nil => exact iff_of_true ⟨[], rfl⟩ fun a ha => absurd ha List.not_mem_nil
  | cons a l ih =>
    rw [List.mapM_cons, List.forall_mem_cons, ← ih]
    refine succeeds_bind_const fun b _ => ?_
    exact succeeds_bind_left fun bs => ⟨b :: bs, rfl⟩

/-- A loop whose steps succeed whatever was done before. -/
theorem succeeds_foldlM {f : β → α → Except ε β} {p : α → Prop} {l : List α} {b : β}
    (h : ∀ a ∈ l, ∀ b, Succeeds (f b a) ↔ p a) : Succeeds (l.foldlM f b) ↔ ∀ a ∈ l, p a := by
  induction l generalizing b with
  | nil => exact iff_of_true ⟨b, rfl⟩ fun a ha => absurd ha List.not_mem_nil
  | cons a l ih =>
    rw [List.foldlM_cons, List.forall_mem_cons, ← h a List.mem_cons_self b]
    exact succeeds_bind_const fun b' _ => ih fun c hc => h c (List.mem_cons_of_mem _ hc)

/-! ## Two computations side by side -/

section

variable {α' β' : Type}

/-- Both fail with one error, or both succeed, with related values. -/
inductive Related (R : α → α' → Prop) : Except ε α → Except ε α' → Prop where
  | ok {a : α} {a' : α'} (h : R a a') : Related R (.ok a) (.ok a')
  | error (e : ε) : Related R (.error e) (.error e)

variable {R : α → α' → Prop} {S : β → β' → Prop}

theorem Related.of_eq {x y : Except ε α} (h : x = y) : Related (· = ·) x y := by
  subst h
  cases x with
  | error e => exact .error e
  | ok a => exact .ok rfl

theorem Related.eq {x y : Except ε α} (h : Related (· = ·) x y) : x = y := by
  cases h with
  | ok h => rw [h]
  | error e => rfl

theorem Related.mono {R' : α → α' → Prop} {x : Except ε α} {y : Except ε α'}
    (h : Related R x y) (hR : ∀ a a', R a a' → R' a a') : Related R' x y := by
  cases h with
  | ok h => exact .ok (hR _ _ h)
  | error e => exact .error e

theorem Related.bind {x : Except ε α} {y : Except ε α'} {f : α → Except ε β}
    {g : α' → Except ε β'} (h : Related R x y) (hf : ∀ a a', R a a' → Related S (f a) (g a')) :
    Related S (x >>= f) (y >>= g) := by
  cases h with
  | ok h => exact hf _ _ h
  | error e => exact .error e

theorem Related.mapError {ε' : Type} {f : ε → ε'} {x : Except ε α} {y : Except ε α'}
    (h : Related R x y) : Related R (x.mapError f) (y.mapError f) := by
  cases h with
  | ok h => exact .ok h
  | error e => exact .error (f e)

/-- Two loops over one list whose steps keep their states related. -/
theorem Related.foldlM {f : β → α → Except ε β} {g : β' → α → Except ε β'} {l : List α} {b : β}
    {b' : β'} (hb : S b b')
    (h : ∀ a ∈ l, ∀ b b', S b b' → Related S (f b a) (g b' a)) :
    Related S (l.foldlM f b) (l.foldlM g b') := by
  induction l generalizing b b' with
  | nil => exact .ok hb
  | cons a l ih =>
    rw [List.foldlM_cons, List.foldlM_cons]
    refine Related.bind (h a List.mem_cons_self b b' hb) ?_
    intro c c' hc
    exact ih hc fun x hx => h x (List.mem_cons_of_mem _ hx)

/-- Two maps over one list whose values are related item by item. -/
theorem Related.mapM {f : α → Except ε β} {g : α → Except ε β'} {l : List α}
    (h : ∀ a ∈ l, Related S (f a) (g a)) :
    Related (List.Forall₂ S) (l.mapM f) (l.mapM g) := by
  induction l with
  | nil => exact .ok .nil
  | cons a l ih =>
    rw [List.mapM_cons, List.mapM_cons]
    refine Related.bind (h a List.mem_cons_self) fun b b' hb => ?_
    have hl := ih fun x hx => h x (List.mem_cons_of_mem _ hx)
    exact Related.bind hl fun bs bs' hbs => .ok (.cons hb hbs)

end

end Control
