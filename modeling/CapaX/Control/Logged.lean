import Mathlib.Data.List.Basic

/-
  Computations that log events on their way and end with a value or a fault (`Logged`), and their
  partial form (`OptionT`). `Sound P R m Q`: if every event that `m` logs meets `P`, then `m` ends
  with a value in `Q`, and every event meets `R`. The assumption is about the whole log, so it
  passes to each part of a sequence (`Sound.bind`), and a loop is sound when its body is.
  `Exact P m`: `m` ends with a value exactly when every event that it logs meets `P`. A loop whose
  turns go down in a well-founded relation (`iterate`) is exact when its turns are.
-/

namespace Control

/-- A run: the events so far, and how it ended. -/
structure Logged (φ ε α : Type) where
  log : List ε
  outcome : Except φ α

namespace Logged

variable {φ ε α β : Type}

/-- Go on with the value of a run, if it has one. -/
def andThen (m : Logged φ ε α) (f : α → Logged φ ε β) : Logged φ ε β :=
  match m.outcome with
  | .error e => ⟨m.log, .error e⟩
  | .ok a => ⟨m.log ++ (f a).log, (f a).outcome⟩

instance : Monad (Logged φ ε) where
  pure a := ⟨[], .ok a⟩
  bind := andThen

def throwFault (fault : φ) : Logged φ ε α := ⟨[], .error fault⟩

def emit (event : ε) : Logged φ ε Unit := ⟨[event], .ok ()⟩

theorem pure_andThen (a : α) (f : α → Logged φ ε β) : (pure a : Logged φ ε α).andThen f = f a := rfl

theorem andThen_pure (m : Logged φ ε α) : m.andThen pure = m := by
  obtain ⟨log, outcome⟩ := m
  cases outcome with
  | error e => rfl
  | ok a => exact congrArg (fun events => (⟨events, .ok a⟩ : Logged φ ε α)) (List.append_nil log)

theorem andThen_assoc {γ : Type} (m : Logged φ ε α) (f : α → Logged φ ε β)
    (g : β → Logged φ ε γ) : (m.andThen f).andThen g = m.andThen fun a => (f a).andThen g := by
  obtain ⟨log, outcome⟩ := m
  cases outcome with
  | error e => rfl
  | ok a =>
    simp only [andThen]
    cases (f a).outcome with
    | error e => rfl
    | ok b => simp [List.append_assoc]

instance : LawfulMonad (Logged φ ε) := LawfulMonad.mk' _ andThen_pure pure_andThen andThen_assoc

/-! ## Partial runs -/

abbrev Partial (φ ε α : Type) := OptionT (Logged φ ε) α

def ofRun (m : Logged φ ε α) : Partial φ ε α := OptionT.mk (m >>= fun a => pure (some a))

def ofOption (o : Option α) : Partial φ ε α := OptionT.mk (pure o)

/-- The values of the elements that have one, in order. -/
def collect (f : β → Partial φ ε α) : List β → Logged φ ε (List α)
  | [] => pure []
  | b :: bs => do
    let found ← (f b).run
    let rest ← collect f bs
    pure (found.toList ++ rest)

/-- The value of the first element that has one. -/
def firstSome (f : β → Partial φ ε α) : List β → Partial φ ε α
  | [] => ofOption none
  | b :: bs => OptionT.mk do
    match ← (f b).run with
    | some a => pure (some a)
    | none => (firstSome f bs).run

/-- A loop over a list with an accumulator. -/
def foldRun (f : α → β → Logged φ ε α) : α → List β → Logged φ ε α
  | a, [] => pure a
  | a, b :: bs => do
    let a' ← f a b
    foldRun f a' bs

/-! ## Soundness -/

section

variable (P R : ε → Prop)

def Sound (m : Logged φ ε α) (Q : α → Prop) : Prop :=
  (∀ e ∈ m.log, P e) → (∃ a, m.outcome = .ok a ∧ Q a) ∧ ∀ e ∈ m.log, R e

/-- A sound partial run ends, with no value or with one in `Q`. -/
def SoundPartial (m : Partial φ ε α) (Q : α → Prop) : Prop :=
  Sound P R m.run fun o => ∀ a, o = some a → Q a

end

variable {P R : ε → Prop} {Q Q' : α → Prop} {S : β → Prop}

theorem Sound.weaken {m : Logged φ ε α} (h : Sound P R m Q) (hq : ∀ a, Q a → Q' a) :
    Sound P R m Q' := by
  intro hlog
  obtain ⟨⟨a, hout, ha⟩, hR⟩ := h hlog
  exact ⟨⟨a, hout, hq a ha⟩, hR⟩

theorem sound_pure {a : α} (ha : Q a) : Sound P R (pure a : Logged φ ε α) Q :=
  fun _ => ⟨⟨a, rfl, ha⟩, fun _ he => absurd he List.not_mem_nil⟩

theorem Sound.bind {m : Logged φ ε α} {f : α → Logged φ ε β} (h : Sound P R m Q)
    (hf : ∀ a, Q a → Sound P R (f a) S) : Sound P R (m >>= f) S := by
  intro hlog
  have hbind : m >>= f = m.andThen f := rfl
  have hm : ∀ e ∈ m.log, P e := by
    intro e he
    apply hlog
    rw [hbind, andThen]
    cases hout : m.outcome with
    | error fault => exact he
    | ok a => exact List.mem_append_left _ he
  obtain ⟨⟨a, hout, ha⟩, hR⟩ := h hm
  rw [hbind, andThen, hout] at hlog ⊢
  obtain ⟨hval, hR'⟩ := hf a ha fun e he => hlog e (List.mem_append_right _ he)
  refine ⟨hval, fun e he => ?_⟩
  rcases List.mem_append.mp he with he | he
  · exact hR e he
  · exact hR' e he

theorem SoundPartial.weaken {m : Partial φ ε α} (h : SoundPartial P R m Q)
    (hq : ∀ a, Q a → Q' a) : SoundPartial P R m Q' :=
  Sound.weaken h fun _ ho a ha => hq a (ho a ha)

theorem soundPartial_pure {a : α} (ha : Q a) : SoundPartial P R (pure a : Partial φ ε α) Q :=
  sound_pure fun _ hb => Option.some.inj hb ▸ ha

theorem soundPartial_ofOption {o : Option α} (ho : ∀ a, o = some a → Q a) :
    SoundPartial P R (ofOption o : Partial φ ε α) Q :=
  sound_pure ho

theorem SoundPartial.ofRun {m : Logged φ ε α} (h : Sound P R m Q) :
    SoundPartial P R (ofRun m) Q :=
  Sound.bind h fun _ ha => sound_pure fun _ hb => Option.some.inj hb ▸ ha

theorem SoundPartial.bind {m : Partial φ ε α} {f : α → Partial φ ε β} (h : SoundPartial P R m Q)
    (hf : ∀ a, Q a → SoundPartial P R (f a) S) : SoundPartial P R (m >>= f) S := by
  refine Sound.bind h fun o ho => ?_
  cases o with
  | none => exact sound_pure fun _ hb => nomatch hb
  | some a => exact hf a (ho a rfl)

/-- Every collected value is in `Q`, and there are no more of them than elements. -/
theorem sound_collect {f : β → Partial φ ε α} {bs : List β}
    (h : ∀ b ∈ bs, SoundPartial P R (f b) Q) :
    Sound P R (collect f bs) fun as => as.length ≤ bs.length ∧ ∀ a ∈ as, Q a := by
  induction bs with
  | nil => exact sound_pure ⟨Nat.le_refl 0, fun _ ha => absurd ha List.not_mem_nil⟩
  | cons b bs ih =>
    refine Sound.bind (h b List.mem_cons_self) fun found ha => ?_
    refine Sound.bind (ih fun c hc => h c (List.mem_cons_of_mem _ hc)) fun rest hrest => ?_
    refine sound_pure ⟨?_, fun a hmem => ?_⟩
    · have hone : found.toList.length ≤ 1 := by cases found <;> simp
      rw [List.length_append, List.length_cons]
      omega
    · rcases List.mem_append.mp hmem with hmem | hmem
      · exact ha a (Option.mem_toList.mp hmem)
      · exact hrest.2 a hmem

theorem soundPartial_firstSome {f : β → Partial φ ε α} {bs : List β}
    (h : ∀ b ∈ bs, SoundPartial P R (f b) Q) : SoundPartial P R (firstSome f bs) Q := by
  induction bs with
  | nil => exact soundPartial_ofOption fun _ ha => nomatch ha
  | cons b bs ih =>
    refine Sound.bind (h b List.mem_cons_self) fun found ha => ?_
    cases found with
    | none => exact ih fun c hc => h c (List.mem_cons_of_mem _ hc)
    | some a => exact sound_pure ha

/-- A loop keeps an invariant that counts the elements gone through. -/
theorem sound_foldRun {f : α → β → Logged φ ε α} {I : Nat → α → Prop} {bs : List β} {n total : Nat}
    {a : α} (htotal : n + bs.length = total) (ha : I n a)
    (h : ∀ b ∈ bs, ∀ n a, n < total → I n a → Sound P R (f a b) (I (n + 1))) :
    Sound P R (foldRun f a bs) (I total) := by
  induction bs generalizing n a with
  | nil => exact sound_pure (htotal ▸ ha)
  | cons b bs ih =>
    rw [List.length_cons] at htotal
    refine Sound.bind (h b List.mem_cons_self n a (by omega) ha) fun a' ha' => ?_
    exact ih (by omega) ha' fun c hc => h c (List.mem_cons_of_mem _ hc)

/-! ## Exactness -/

/-- The run ends with a value. -/
def Returns (m : Logged φ ε α) : Prop := ∃ a, m.outcome = .ok a

/-- The run returns exactly when every event that it logs meets `P`. -/
def Exact (P : ε → Prop) (m : Logged φ ε α) : Prop := m.Returns ↔ ∀ e ∈ m.log, P e

theorem returns_pure (a : α) : (pure a : Logged φ ε α).Returns := ⟨a, rfl⟩

theorem outcome_bind {m : Logged φ ε α} {f : α → Logged φ ε β} {b : β} :
    (m >>= f).outcome = .ok b ↔ ∃ a, m.outcome = .ok a ∧ (f a).outcome = .ok b := by
  have hbind : m >>= f = m.andThen f := rfl
  rw [hbind, andThen]
  cases hout : m.outcome with
  | error fault => simp
  | ok a => simp

theorem outcome_bind_ok {m : Logged φ ε α} {f : α → Logged φ ε β} {a : α}
    (h : m.outcome = .ok a) : (m >>= f).outcome = (f a).outcome := by
  have hbind : m >>= f = m.andThen f := rfl
  rw [hbind, andThen, h]

theorem Returns.of_bind {m : Logged φ ε α} {f : α → Logged φ ε β} (h : (m >>= f).Returns) :
    m.Returns := by
  obtain ⟨b, hb⟩ := h
  obtain ⟨a, ha, -⟩ := outcome_bind.mp hb
  exact ⟨a, ha⟩

/-- What every turn of a loop preserves holds of its value. -/
theorem foldRun_inv {I : α → Prop} {f : α → β → Logged φ ε α}
    (h : ∀ a b a', I a → (f a b).outcome = .ok a' → I a') {a a' : α} {bs : List β} (ha : I a)
    (hout : (foldRun f a bs).outcome = .ok a') : I a' := by
  induction bs generalizing a with
  | nil =>
    obtain rfl : a = a' := Except.ok.inj hout
    exact ha
  | cons b bs ih =>
    obtain ⟨next, hnext, hrest⟩ := outcome_bind.mp hout
    exact ih (h a b next ha hnext) hrest

theorem exact_pure (a : α) : Exact P (pure a : Logged φ ε α) :=
  ⟨fun _ _ he => absurd he List.not_mem_nil, fun _ => returns_pure a⟩

theorem Exact.bind {m : Logged φ ε α} {f : α → Logged φ ε β} (h : Exact P m)
    (hf : ∀ a, m.outcome = .ok a → Exact P (f a)) : Exact P (m >>= f) := by
  obtain ⟨log, outcome⟩ := m
  cases outcome with
  | error e =>
    constructor
    · rintro ⟨b, hb⟩
      cases hb
    · intro hlog
      obtain ⟨a, ha⟩ := h.mpr hlog
      cases ha
  | ok a =>
    have hm : ∀ e ∈ log, P e := h.mp ⟨a, rfl⟩
    constructor
    · intro hreturns e he
      rcases List.mem_append.mp he with he | he
      · exact hm e he
      · exact (hf a rfl).mp hreturns e he
    · intro hlog
      exact (hf a rfl).mpr fun e he => hlog e (List.mem_append_right log he)

/-- An event, and a silent run that returns exactly when the event meets `P`. -/
theorem exact_emit {e : ε} {m : Logged φ ε α} (hlog : m.log = []) (h : m.Returns ↔ P e) :
    Exact P (emit e >>= fun _ => m) := by
  have hlogged : (emit e >>= fun _ => m).log = [e] := congrArg (e :: ·) hlog
  unfold Exact
  rw [hlogged, List.forall_mem_singleton]
  exact h

theorem exact_foldRun {f : α → β → Logged φ ε α} (h : ∀ a b, Exact P (f a b)) (a : α)
    (bs : List β) : Exact P (foldRun f a bs) := by
  induction bs generalizing a with
  | nil => exact exact_pure a
  | cons b bs ih => exact (h a b).bind fun a' _ => ih a'

/-! ## Partial correctness -/

/-- Every event meets `P`, however the run ends, and a value that it ends with is in `Q`. -/
def Upholds (P : ε → Prop) (m : Logged φ ε α) (Q : α → Prop) : Prop :=
  (∀ e ∈ m.log, P e) ∧ ∀ a, m.outcome = .ok a → Q a

theorem Upholds.weaken {m : Logged φ ε α} (h : Upholds P m Q) (hq : ∀ a, Q a → Q' a) :
    Upholds P m Q' := ⟨h.1, fun a ha => hq a (h.2 a ha)⟩

theorem upholds_pure {a : α} (ha : Q a) : Upholds P (pure a : Logged φ ε α) Q :=
  ⟨fun _ he => absurd he List.not_mem_nil, fun _ hb => Except.ok.inj hb ▸ ha⟩

theorem upholds_throwFault {fault : φ} : Upholds P (throwFault fault : Logged φ ε α) Q :=
  ⟨fun _ he => absurd he List.not_mem_nil, fun _ ha => nomatch ha⟩

theorem upholds_emit {e : ε} {R : Unit → Prop} (he : P e) (hr : R ()) :
    Upholds P (emit e : Logged φ ε Unit) R :=
  ⟨fun _ h => List.mem_singleton.mp h ▸ he, fun _ _ => hr⟩

theorem Upholds.bind {m : Logged φ ε α} {f : α → Logged φ ε β} (h : Upholds P m Q)
    (hf : ∀ a, Q a → Upholds P (f a) S) : Upholds P (m >>= f) S := by
  constructor
  · intro e he
    have hbind : m >>= f = m.andThen f := rfl
    rw [hbind, andThen] at he
    cases hout : m.outcome with
    | error fault =>
      rw [hout] at he
      exact h.1 e he
    | ok a =>
      rw [hout] at he
      rcases List.mem_append.mp he with he | he
      · exact h.1 e he
      · exact (hf a (h.2 a hout)).1 e he
  · intro b hb
    obtain ⟨a, ha, hrest⟩ := outcome_bind.mp hb
    exact (hf a (h.2 a ha)).2 b hrest

/-- Two ways to go on alike. -/
theorem Upholds.ite_bind {c : Prop} [Decidable c] {m m' : Logged φ ε α} {f : α → Logged φ ε β}
    (h : Upholds P m Q) (h' : Upholds P m' Q) (hf : ∀ a, Q a → Upholds P (f a) S) :
    Upholds P (if c then m >>= f else m' >>= f) S := by
  split
  · exact h.bind hf
  · exact h'.bind hf

/-- A loop upholds what each of its turns does. -/
theorem upholds_foldRun {f : α → β → Logged φ ε α} {bs : List β}
    (h : ∀ a, ∀ b ∈ bs, Q a → Upholds P (f a b) Q) {a : α} (ha : Q a) :
    Upholds P (foldRun f a bs) Q := by
  induction bs generalizing a with
  | nil => exact upholds_pure ha
  | cons b bs ih =>
    refine (h a b List.mem_cons_self ha).bind fun a' ha' => ?_
    exact ih (fun a c hc => h a c (List.mem_cons_of_mem _ hc)) ha'

/-! ## Logs -/

theorem log_bind {m : Logged φ ε α} {f : α → Logged φ ε β} {a : α} (h : m.outcome = .ok a) :
    (m >>= f).log = m.log ++ (f a).log := by
  have hbind : m >>= f = m.andThen f := rfl
  rw [hbind, andThen, h]

theorem log_bind_congr {m : Logged φ ε α} {f g : α → Logged φ ε β}
    (h : ∀ a, (f a).log = (g a).log) : (m >>= f).log = (m >>= g).log := by
  show (m.andThen f).log = (m.andThen g).log
  cases hout : m.outcome with
  | error fault => simp only [andThen, hout]
  | ok a => simp only [andThen, hout, h a]

/-- The run logs nothing. -/
def Quiet (m : Logged φ ε α) : Prop := m.log = []

theorem quiet_pure (a : α) : Quiet (pure a : Logged φ ε α) := rfl

theorem quiet_throwFault (fault : φ) : Quiet (throwFault fault : Logged φ ε α) := rfl

theorem Quiet.bind {m : Logged φ ε α} {f : α → Logged φ ε β} (h : Quiet m)
    (hf : ∀ a, Quiet (f a)) : Quiet (m >>= f) := by
  cases hout : m.outcome with
  | error fault =>
    have hbind : m >>= f = m.andThen f := rfl
    rw [Quiet, hbind, andThen, hout]
    exact h
  | ok a => rw [Quiet, log_bind hout, h, hf a, List.nil_append]

/-! ## Silence -/

/-- Nothing but a value. -/
def Silent (m : Logged φ ε α) : Prop := ∃ a, m = pure a

theorem silent_pure (a : α) : Silent (pure a : Logged φ ε α) := ⟨a, rfl⟩

theorem Silent.bind {m : Logged φ ε α} {f : α → Logged φ ε β} (h : Silent m)
    (hf : ∀ a, Silent (f a)) : Silent (m >>= f) := by
  obtain ⟨a, rfl⟩ := h
  exact hf a

theorem silent_foldRun {f : α → β → Logged φ ε α} {bs : List β}
    (h : ∀ a, ∀ b ∈ bs, Silent (f a b)) (a : α) : Silent (foldRun f a bs) := by
  induction bs generalizing a with
  | nil => exact silent_pure a
  | cons b bs ih =>
    refine (h a b List.mem_cons_self).bind fun a' => ?_
    exact ih (fun a c hc => h a c (List.mem_cons_of_mem _ hc)) a'

/-- A loop does not return when one of its turns never does. -/
theorem not_returns_foldRun {f : α → β → Logged φ ε α} {b : β} {bs : List β} (hb : b ∈ bs)
    (h : ∀ a, ¬(f a b).Returns) (a : α) : ¬(foldRun f a bs).Returns := by
  induction bs generalizing a with
  | nil => exact absurd hb List.not_mem_nil
  | cons c bs ih =>
    intro hreturns
    rcases List.mem_cons.mp hb with rfl | hb
    · exact h a hreturns.of_bind
    · obtain ⟨result, hresult⟩ := hreturns
      obtain ⟨a', -, hrest⟩ := outcome_bind.mp hresult
      exact ih hb a' ⟨result, hrest⟩

theorem Silent.exact {m : Logged φ ε α} (h : Silent m) : Exact P m := by
  obtain ⟨a, rfl⟩ := h
  exact exact_pure a

/-! ## Loops -/

section

variable {σ ρ : Type} [WellFoundedRelation ρ]

/-- Take turns until one ends with a value. -/
def iterate (rank : σ → ρ) (turn : σ → Logged φ ε (σ ⊕ α))
    (hturn : ∀ s s', (turn s).outcome = .ok (.inl s') →
      WellFoundedRelation.rel (rank s') (rank s)) (s : σ) : Logged φ ε α :=
  match _hout : (turn s).outcome with
  | .error fault => ⟨(turn s).log, .error fault⟩
  | .ok (.inr a) => ⟨(turn s).log, .ok a⟩
  | .ok (.inl s') =>
    let rest := iterate rank turn hturn s'
    ⟨(turn s).log ++ rest.log, rest.outcome⟩
termination_by rank s
decreasing_by exact hturn s s' _hout

variable {rank : σ → ρ} {turn : σ → Logged φ ε (σ ⊕ α)}
  {hturn : ∀ s s', (turn s).outcome = .ok (.inl s') → WellFoundedRelation.rel (rank s') (rank s)}

theorem iterate_eq (s : σ) : iterate rank turn hturn s =
    turn s >>= fun next => match next with
      | .inl s' => iterate rank turn hturn s'
      | .inr a => pure a := by
  rw [iterate]
  show _ = (turn s).andThen _
  unfold andThen
  split
  · next fault h => rw [h]
  · next a h =>
    rw [h]
    exact congrArg (fun log => (⟨log, .ok a⟩ : Logged φ ε α)) (List.append_nil _).symm
  · next s' h => rw [h]

theorem exact_iterate (h : ∀ s, Exact P (turn s)) (s : σ) :
    Exact P (iterate rank turn hturn s) := by
  refine (InvImage.wf rank WellFoundedRelation.wf).induction
    (C := fun s => Exact P (iterate rank turn hturn s)) s fun s ih => ?_
  rw [iterate_eq]
  refine (h s).bind fun next hnext => ?_
  cases next with
  | inl s' => exact ih s' (hturn s s' hnext)
  | inr a => exact exact_pure a

end

end Logged

end Control
