import CapaX.Control.Logged

/-
  Logged runs over a state (`Run`). `Traces R m`: whatever `m` logs leads from the state it starts
  in along `R`, also when it ends with a fault, and to the state it ends in when it ends with a
  value; `R` has to be closed under going on (`Composes`). `Keeps I E m`: from a state in `I` the
  run ends in `I`, or with a fault in `E`. Both are properties that a sequence has when its parts do
  (`Compositional`), and what holds of loops is proved for every such property.
-/

namespace Control

open Logged

abbrev Run (σ φ ε α : Type) := StateT σ (Logged φ ε) α

namespace Run

variable {σ φ ε α β : Type}

def fail (fault : φ) : Run σ φ ε α := fun _ => throwFault fault

def emit (event : ε) : Run σ φ ε Unit := fun s => ⟨[event], .ok ((), s)⟩

/-- The elements that pass a test, in order. -/
def keepIf (f : β → Run σ φ ε Bool) : List β → Run σ φ ε (List β)
  | [] => pure []
  | b :: bs => do
    let keep ← f b
    let rest ← keepIf f bs
    pure (if keep then b :: rest else rest)

def forEach (f : β → Run σ φ ε Unit) : List β → Run σ φ ε Unit
  | [] => pure ()
  | b :: bs => do
    f b
    forEach f bs

theorem bind_apply (m : Run σ φ ε α) (f : α → Run σ φ ε β) (s : σ) :
    (m >>= f) s = (m s).andThen fun r => f r.1 r.2 := rfl

theorem get_bind_apply (f : σ → Run σ φ ε β) (s : σ) : (get >>= f) s = f s s := rfl

/-! ## Properties of parts -/

/-- A property of runs that sequences inherit. -/
structure Compositional (P : ∀ α : Type, Run σ φ ε α → Prop) : Prop where
  pure : ∀ {α : Type} (a : α), P α (pure a)
  get : P σ get
  bind : ∀ {α β : Type} {m : Run σ φ ε α} {f : α → Run σ φ ε β}, P α m → (∀ a, P β (f a)) →
    P β (m >>= f)

section

variable {P : ∀ α : Type, Run σ φ ε α → Prop} (hP : Compositional P)

include hP

theorem Compositional.keepIf {f : β → Run σ φ ε Bool} (h : ∀ b, P Bool (f b)) (bs : List β) :
    P (List β) (keepIf f bs) := by
  induction bs with
  | nil => exact hP.pure []
  | cons b bs ih => exact hP.bind (h b) fun keep => hP.bind ih fun rest => hP.pure _

theorem Compositional.forEach {f : β → Run σ φ ε Unit} (h : ∀ b, P Unit (f b)) (bs : List β) :
    P Unit (forEach f bs) := by
  induction bs with
  | nil => exact hP.pure ()
  | cons b bs ih => exact hP.bind (h b) fun _ => ih

end

/-! ## Tracing -/

/-- What is logged on the way from one state to another, when one can go on from there. -/
structure Composes (R : σ → List ε → σ → Prop) : Prop where
  refl : ∀ s, R s [] s
  trans : ∀ {s t u l l'}, R s l t → R t l' u → R s (l ++ l') u

structure TracesFrom (R : σ → List ε → σ → Prop) (s : σ) (run : Logged φ ε (α × σ)) : Prop where
  begun : ∃ t, R s run.log t
  ended : ∀ a t, run.outcome = .ok (a, t) → R s run.log t

def Traces (R : σ → List ε → σ → Prop) (m : Run σ φ ε α) : Prop := ∀ s, TracesFrom R s (m s)

variable {R : σ → List ε → σ → Prop}

theorem traces_of_ok (m : Run σ φ ε α) (h : ∀ s, ∃ a t, (m s).outcome = .ok (a, t) ∧
    R s (m s).log t) : Traces R m := by
  intro s
  obtain ⟨a, t, hout, hR⟩ := h s
  refine ⟨⟨t, hR⟩, fun b u hu => ?_⟩
  obtain ⟨-, rfl⟩ := Prod.mk.inj (Except.ok.inj (hout.symm.trans hu))
  exact hR

theorem traces_fail (hR : Composes R) (fault : φ) : Traces R (fail fault : Run σ φ ε α) :=
  fun s => ⟨⟨s, hR.refl s⟩, nofun⟩

theorem TracesFrom.weaken {R' : σ → List ε → σ → Prop} {s s' : σ} {run : Logged φ ε (α × σ)}
    (h : TracesFrom R s run) (hR : ∀ l t, R s l t → R' s' l t) : TracesFrom R' s' run where
  begun := h.begun.imp fun t ht => hR _ t ht
  ended a t ht := hR _ t (h.ended a t ht)

/-- One part after the other, each along its own relation. -/
theorem TracesFrom.bind {R₁ R₂ : σ → List ε → σ → Prop} {m : Run σ φ ε α} {f : α → Run σ φ ε β}
    {s : σ} (h : TracesFrom R₁ s (m s)) (hf : ∀ a t, TracesFrom R₂ t (f a t))
    (hstop : ∀ l t, R₁ s l t → R s l t)
    (htrans : ∀ l t l' u, R₁ s l t → R₂ t l' u → R s (l ++ l') u) :
    TracesFrom R s ((m >>= f) s) := by
  rw [bind_apply, andThen]
  cases hout : (m s).outcome with
  | error e => exact ⟨h.begun.imp fun t ht => hstop _ t ht, fun a t ht => by contradiction⟩
  | ok r =>
    obtain ⟨a, t⟩ := r
    have hfirst := h.ended a t hout
    obtain ⟨u, hu⟩ := (hf a t).begun
    exact ⟨⟨u, htrans _ t _ u hfirst hu⟩,
      fun b v hv => htrans _ t _ v hfirst ((hf a t).ended b v hv)⟩

theorem traces_compositional (hR : Composes R) :
    Compositional (φ := φ) fun _ => Traces R where
  pure a := traces_of_ok _ fun s => ⟨a, s, rfl, hR.refl s⟩
  get := traces_of_ok _ fun s => ⟨s, s, rfl, hR.refl s⟩
  bind h hf s := (h s).bind hf (fun _ _ => id) fun _ _ _ _ => hR.trans

/-! ## Invariants -/

/-- A run that ends in a state in `I`, or with a fault in `E`. -/
structure EndsIn (I : σ → Prop) (E : φ → Prop) (run : Logged φ ε (α × σ)) : Prop where
  value : ∀ a t, run.outcome = .ok (a, t) → I t
  fault : ∀ e, run.outcome = .error e → E e

def Keeps (I : σ → Prop) (E : φ → Prop) (m : Run σ φ ε α) : Prop := ∀ s, I s → EndsIn I E (m s)

variable {I J : σ → Prop} {E : φ → Prop}

theorem endsIn_ok {a : α} {s : σ} {log : List ε} (h : I s) :
    EndsIn I E (⟨log, .ok (a, s)⟩ : Logged φ ε (α × σ)) where
  value _ _ ht := (Prod.mk.inj (Except.ok.inj ht)).2 ▸ h
  fault _ he := nomatch he

theorem EndsIn.weaken {run : Logged φ ε (α × σ)} (h : EndsIn I E run) (hJ : ∀ s, I s → J s) :
    EndsIn J E run where
  value a t ht := hJ t (h.value a t ht)
  fault := h.fault

theorem EndsIn.bind {m : Run σ φ ε α} {f : α → Run σ φ ε β} {s : σ} (h : EndsIn J E (m s))
    (hf : ∀ a t, J t → EndsIn I E (f a t)) : EndsIn I E ((m >>= f) s) := by
  rw [bind_apply, andThen]
  cases hout : (m s).outcome with
  | error e =>
    exact ⟨fun a t ht => by contradiction, fun e' he => Except.error.inj he ▸ h.fault e hout⟩
  | ok r =>
    have hnext := hf r.1 r.2 (h.value r.1 r.2 hout)
    exact ⟨hnext.value, hnext.fault⟩

theorem keeps_fail {fault : φ} (h : E fault) : Keeps I E (fail fault : Run σ φ ε α) :=
  fun _ _ => ⟨nofun, fun _ he => Except.error.inj he ▸ h⟩

theorem keeps_compositional (I : σ → Prop) (E : φ → Prop) :
    Compositional (ε := ε) fun _ => Keeps I E where
  pure _ _ hs := endsIn_ok hs
  get _ hs := endsIn_ok hs
  bind h hf s hs := (h s hs).bind fun a t ht => hf a t ht

end Run

end Control
