import Mathlib.Data.List.Sort
import CapaX.Control.Except
import CapaX.Control.Interleaving

/-
  The parallel map of parallel.rs. Workers claim indices of the items from one
  shared cursor, apply the function and keep what it returned, until the items
  run out or one of them sees that an item failed. The flag that says so is
  read with relaxed ordering, so a read may still return `false` after another
  worker has raised it. The function itself is pure here: it returns a value
  or an error for each item, as the claim that the map makes about it does.
-/

namespace CapaX

open Control
open scoped List

/-- How many threads an analysis may use. Always at least 1. -/
structure Jobs where
  get : Nat
  pos : 0 < get

namespace Jobs

/-- Rejects 0 rather than silently promoting it to 1. -/
def new (count : Nat) : Option Jobs :=
  if h : 0 < count then some ⟨count, h⟩ else none

/-- Single-threaded. No threads are spawned at all in this mode. -/
def SERIAL : Jobs := ⟨1, Nat.one_pos⟩

def isSerial (jobs : Jobs) : Bool :=
  jobs.get == 1

end Jobs

/-! ## Workers -/

/-- The two atomics. The cursor is a natural number: it never passes the number
of items by more than the number of workers (`cursor_le`), which a machine word
holds. -/
structure Shared where
  cursor : Nat
  failed : Bool

/-- Where a worker stands in its loop. -/
inductive Phase where
  /-- before the flag is read -/
  | ready
  /-- before the cursor is fetched -/
  | claiming
  /-- with an index in hand, before the function has returned -/
  | working (index : Nat)
  /-- out of the loop -/
  | done
  deriving DecidableEq

/-- What one worker has so far. -/
structure Worker (ρ ε : Type) where
  produced : List (Nat × ρ)
  error : Option (Nat × ε)
  phase : Phase

variable {α ρ ε : Type}

namespace Worker

/-- A worker as it is spawned. -/
def spawned : Worker ρ ε :=
  ⟨[], none, .ready⟩

/-- The index a worker has in hand. -/
def inHand (w : Worker ρ ε) : List Nat :=
  match w.phase with
  | .working index => [index]
  | _ => []

/-- All indices a worker has claimed. -/
def indices (w : Worker ρ ε) : List Nat :=
  w.produced.map Prod.fst ++ (w.error.toList.map Prod.fst ++ w.inHand)

/-- The turns a worker can still take while the cursor stands still. -/
def weight (w : Worker ρ ε) : Nat :=
  match w.phase with
  | .ready => 2
  | .claiming => 1
  | .working _ => 3
  | .done => 0

end Worker

/-- One atomic step of a worker. -/
inductive WorkerTurn (items : List α) (f : α → Except ε ρ) :
    Shared → Worker ρ ε → Shared → Worker ρ ε → Prop where
  /-- `failed.load` returns `false`, which may be stale -/
  | goOn {m : Shared} {w : Worker ρ ε} (hw : w.phase = .ready) :
      WorkerTurn items f m w m { w with phase := .claiming }
  /-- `failed.load` returns `true` -/
  | stop {m : Shared} {w : Worker ρ ε} (hw : w.phase = .ready) (hm : m.failed = true) :
      WorkerTurn items f m w m { w with phase := .done }
  /-- `cursor.fetch_add` hands out an index -/
  | claim {m : Shared} {w : Worker ρ ε} (hw : w.phase = .claiming)
      (hm : m.cursor < items.length) :
      WorkerTurn items f m w { m with cursor := m.cursor + 1 }
        { w with phase := .working m.cursor }
  /-- `cursor.fetch_add` is past the last item -/
  | exhausted {m : Shared} {w : Worker ρ ε} (hw : w.phase = .claiming)
      (hm : items.length ≤ m.cursor) :
      WorkerTurn items f m w { m with cursor := m.cursor + 1 } { w with phase := .done }
  /-- the function returned a value -/
  | record {m : Shared} {w : Worker ρ ε} {index : Nat} {item : α} {value : ρ}
      (hw : w.phase = .working index) (hi : items[index]? = some item) (hf : f item = .ok value) :
      WorkerTurn items f m w m
        { w with produced := w.produced ++ [(index, value)], phase := .ready }
  /-- the function failed -/
  | fail {m : Shared} {w : Worker ρ ε} {index : Nat} {item : α} {e : ε}
      (hw : w.phase = .working index) (hi : items[index]? = some item) (hf : f item = .error e) :
      WorkerTurn items f m w { m with failed := true }
        { w with error := some (index, e), phase := .done }

/-- The pool as it stands once every worker is spawned. -/
def spawn (workers : Nat) : Pool Shared (Worker ρ ε) :=
  ⟨⟨0, false⟩, List.replicate workers .spawned⟩

/-! ## Joining -/

/-- Keeps a worker's error if its index is below that of the error kept so far. -/
def keepFirst (first : Option (Nat × ε)) (w : Worker ρ ε) : Option (Nat × ε) :=
  match w.error, first with
  | none, _ => first
  | some x, none => some x
  | some x, some earlier => if x.1 < earlier.1 then some x else first

/-- The error with the lowest index, in the order the workers are joined. -/
def firstError (outcomes : List (Worker ρ ε)) : Option (Nat × ε) :=
  outcomes.foldl keepFirst none

/-- All values, sorted by the index of their item. -/
def producedInOrder (outcomes : List (Worker ρ ε)) : List (Nat × ρ) :=
  (outcomes.flatMap Worker.produced).insertionSort fun a b => a.1 ≤ b.1

/-- What the calling thread makes of the workers' outcomes. -/
def collectOutcomes (outcomes : List (Worker ρ ε)) : Except ε (List ρ) :=
  match firstError outcomes with
  | some (_, e) => .error e
  | none => .ok ((producedInOrder outcomes).map Prod.snd)

/-- The loop that runs on the calling thread. -/
def serialMap (items : List α) (f : α → Except ε ρ) : Except ε (List ρ) :=
  items.mapM f

/-- `try_map` may return `r`: the serial loop does, or some run of the workers
ends with every one of them out of its loop and leaves `r` to be collected. -/
inductive TryMap (jobs : Jobs) (items : List α) (f : α → Except ε ρ) :
    Except ε (List ρ) → Prop where
  | serial (h : jobs.isSerial = true ∨ items.length < 2) : TryMap jobs items f (serialMap items f)
  | joined {p : Pool Shared (Worker ρ ε)} (h : ¬ (jobs.isSerial = true ∨ items.length < 2))
      (run : Pool.Run (WorkerTurn items f) (spawn (min jobs.get items.length)) p)
      (done : ∀ w ∈ p.workers, w.phase = .done) :
      TryMap jobs items f (collectOutcomes p.workers)

/-! ## What a turn does -/

variable {items : List α} {f : α → Except ε ρ} {m m' : Shared} {w w' : Worker ρ ε}

/-- The indices a turn adds to its worker are those the cursor moves past. -/
theorem WorkerTurn.indices_add (h : WorkerTurn items f m w m' w')
    (hq : w.error.isSome → w.phase = .done) :
    ∃ new, w'.indices ~ w.indices ++ new ∧
      List.range (min m'.cursor items.length) = List.range (min m.cursor items.length) ++ new := by
  cases h with
  | goOn hw => exact ⟨[], by simp [Worker.indices, Worker.inHand, hw], by simp⟩
  | stop hw hm => exact ⟨[], by simp [Worker.indices, Worker.inHand, hw], by simp⟩
  | claim hw hm =>
    refine ⟨[m.cursor], by simp [Worker.indices, Worker.inHand, hw], ?_⟩
    show List.range (min (m.cursor + 1) items.length) = _
    rw [Nat.min_eq_left (by omega), Nat.min_eq_left (by omega), List.range_succ]
  | exhausted hw hm =>
    refine ⟨[], by simp [Worker.indices, Worker.inHand, hw], ?_⟩
    simp [Nat.min_eq_right hm, Nat.min_eq_right (Nat.le_succ_of_le hm)]
  | record hw hi hf =>
    refine ⟨[], ?_, by simp⟩
    simp only [Worker.indices, Worker.inHand, hw, List.map_append, List.map_cons, List.map_nil,
      List.append_nil, List.append_assoc]
    exact List.Perm.append_left _ List.perm_append_comm
  | fail hw hi hf =>
    have hn : w.error = none := by
      cases he : w.error with
      | none => rfl
      | some x =>
        have hd : w.phase = .done := hq (by rw [he]; rfl)
        rw [hd] at hw
        exact Phase.noConfusion hw
    exact ⟨[], by simp [Worker.indices, Worker.inHand, hw, hn], by simp⟩

/-- What a worker keeps is what the function returned on the item of its index. -/
def Worker.Sound (items : List α) (f : α → Except ε ρ) (w : Worker ρ ε) : Prop :=
  (∀ x ∈ w.produced, ∃ item, items[x.1]? = some item ∧ f item = .ok x.2) ∧
    ∀ x, w.error = some x → ∃ item, items[x.1]? = some item ∧ f item = .error x.2

theorem WorkerTurn.sound (h : WorkerTurn items f m w m' w') (hs : w.Sound items f) :
    w'.Sound items f := by
  cases h with
  | goOn | stop | claim | exhausted => exact hs
  | record hw hi hf =>
    refine ⟨?_, hs.2⟩
    intro x hx
    rcases List.mem_append.mp hx with hx | hx
    · exact hs.1 x hx
    · rw [List.mem_singleton.mp hx]
      exact ⟨_, hi, hf⟩
  | fail hw hi hf =>
    refine ⟨hs.1, ?_⟩
    intro x hx
    rw [← Option.some.inj hx]
    exact ⟨_, hi, hf⟩

/-- An error is kept by the turn that leaves the loop, and by no other. -/
theorem WorkerTurn.quiet (h : WorkerTurn items f m w m' w')
    (hq : w.error.isSome → w.phase = .done) : w'.error.isSome → w'.phase = .done := by
  cases h with
  | stop | exhausted | fail => exact fun _ => rfl
  | goOn hw | claim hw | record hw =>
    intro he
    have := hq he
    rw [hw] at this
    exact Phase.noConfusion this

/-- The flag goes up only with an error, and neither is ever taken back. -/
theorem WorkerTurn.raised (h : WorkerTurn items f m w m' w') :
    (m'.failed = true → m.failed = true ∨ w'.error.isSome) ∧
      (m.failed = true → m'.failed = true) ∧ (w.error.isSome → w'.error.isSome) := by
  cases h with
  | goOn | stop | claim | exhausted | record => exact ⟨Or.inl, id, id⟩
  | fail => exact ⟨fun _ => Or.inr rfl, fun _ => rfl, fun _ => rfl⟩

/-- A worker leaves its loop for one of three reasons, and they stay true. -/
theorem WorkerTurn.halts (h : WorkerTurn items f m w m' w') :
    m.cursor ≤ m'.cursor ∧
      (w'.phase = .done → w'.error.isSome ∨ m'.failed = true ∨ items.length ≤ m'.cursor) := by
  cases h with
  | goOn | record => exact ⟨le_rfl, fun h => Phase.noConfusion h⟩
  | claim => exact ⟨Nat.le_succ _, fun h => Phase.noConfusion h⟩
  | stop hw hm => exact ⟨le_rfl, fun _ => Or.inr (Or.inl hm)⟩
  | exhausted hw hm => exact ⟨Nat.le_succ _, fun _ => Or.inr (Or.inr (Nat.le_succ_of_le hm))⟩
  | fail => exact ⟨le_rfl, fun _ => Or.inl rfl⟩

/-- Every turn is paid for: by the cursor where it claims, by the worker elsewhere. -/
theorem WorkerTurn.weight_lt (h : WorkerTurn items f m w m' w') :
    4 * (items.length - m'.cursor) + w'.weight < 4 * (items.length - m.cursor) + w.weight := by
  cases h with
  | goOn hw | stop hw | record hw | fail hw => simp [Worker.weight, hw]
  | claim hw hm => simp only [Worker.weight, hw]; omega
  | exhausted hw hm => simp only [Worker.weight, hw]; omega

/-- A worker inside its loop can always take a turn. -/
theorem WorkerTurn.exists_of_not_done (items : List α) (f : α → Except ε ρ) (m : Shared)
    (hd : w.phase ≠ .done) (hi : ∀ index ∈ w.inHand, index < items.length) :
    ∃ m' w', WorkerTurn items f m w m' w' := by
  cases hw : w.phase with
  | ready => exact ⟨_, _, .goOn hw⟩
  | claiming =>
    by_cases hm : m.cursor < items.length
    · exact ⟨_, _, .claim hw hm⟩
    · exact ⟨_, _, .exhausted hw (Nat.le_of_not_lt hm)⟩
  | working index =>
    have hlt : index < items.length := hi index (by simp [Worker.inHand, hw])
    have hg : items[index]? = some items[index] := List.getElem?_eq_getElem hlt
    cases hf : f items[index] with
    | ok value => exact ⟨_, _, .record hw hg hf⟩
    | error e => exact ⟨_, _, .fail hw hg hf⟩
  | done => exact absurd hw hd

/-! ## What holds in every run -/

/-- What holds between any two turns. -/
structure Consistent (items : List α) (f : α → Except ε ρ) (p : Pool Shared (Worker ρ ε)) :
    Prop where
  /-- every index below the cursor is with one worker, once -/
  handed : p.workers.flatMap Worker.indices ~ List.range (min p.shared.cursor items.length)
  sound : ∀ w ∈ p.workers, w.Sound items f
  quiet : ∀ w ∈ p.workers, w.error.isSome → w.phase = .done
  /-- the flag is up because of somebody's error -/
  raised : p.shared.failed = true → ∃ w ∈ p.workers, w.error.isSome
  halted : ∀ w ∈ p.workers, w.phase = .done →
    w.error.isSome ∨ p.shared.failed = true ∨ items.length ≤ p.shared.cursor

theorem consistent_spawn (items : List α) (f : α → Except ε ρ) (n : Nat) :
    Consistent items f (spawn n) := by
  have hw : ∀ w ∈ (spawn n : Pool Shared (Worker ρ ε)).workers, w = .spawned := fun w hw =>
    List.eq_of_mem_replicate hw
  refine ⟨?_, ?_, ?_, ?_, ?_⟩
  · have h0 : (List.replicate n (.spawned : Worker ρ ε)).flatMap Worker.indices = [] := by
      rw [List.flatMap_eq_nil_iff]
      intro w hw
      rw [List.eq_of_mem_replicate hw]
      rfl
    simp [spawn, h0]
  · intro w h
    rw [hw w h]
    exact ⟨fun x hx => absurd hx List.not_mem_nil, fun x hx => (nomatch hx)⟩
  · intro w h he
    rw [hw w h] at he
    exact Bool.noConfusion he
  · exact fun h => Bool.noConfusion h
  · intro w h hd
    rw [hw w h] at hd
    exact Phase.noConfusion hd

/-- Every turn of every worker keeps the pool consistent. -/
theorem Consistent.step {p q : Pool Shared (Worker ρ ε)} (hc : Consistent items f p)
    (hs : Pool.Step (WorkerTurn items f) p q) : Consistent items f q := by
  cases hs with
  | @turn m m' w w' before after ht =>
    have hmem : w ∈ before ++ w :: after := List.mem_append_right _ List.mem_cons_self
    have hmem' : w' ∈ before ++ w' :: after := List.mem_append_right _ List.mem_cons_self
    have hq := hc.quiet w hmem
    obtain ⟨hup, hkeep, herr⟩ := ht.raised
    obtain ⟨hle, hhalt⟩ := ht.halts
    refine ⟨?_, ?_, ?_, ?_, ?_⟩
    · obtain ⟨new, hi, hr⟩ := ht.indices_add hq
      have := (Pool.flatMap_turn before after hi).trans (hc.handed.append_right new)
      exact this.trans (by rw [hr])
    · intro v hv
      rcases Pool.mem_turn hv with rfl | hv
      · exact ht.sound (hc.sound w hmem)
      · exact hc.sound v hv
    · intro v hv
      rcases Pool.mem_turn hv with rfl | hv
      · exact ht.quiet hq
      · exact hc.quiet v hv
    · intro hf
      rcases hup hf with hf | he
      · obtain ⟨v, hv, he⟩ := hc.raised hf
        have hv : v = w ∨ v ∈ before ++ w' :: after := Pool.mem_turn hv
        rcases hv with rfl | hv
        · exact ⟨w', hmem', herr he⟩
        · exact ⟨v, hv, he⟩
      · exact ⟨w', hmem', he⟩
    · intro v hv hd
      rcases Pool.mem_turn hv with rfl | hv
      · exact hhalt hd
      · rcases hc.halted v hv hd with he | hf | hn
        · exact Or.inl he
        · exact Or.inr (Or.inl (hkeep hf))
        · exact Or.inr (Or.inr (Nat.le_trans hn hle))

theorem consistent_of_run {p : Pool Shared (Worker ρ ε)} {n : Nat}
    (hr : Pool.Run (WorkerTurn items f) (spawn n) p) : Consistent items f p :=
  hr.inv (consistent_spawn items f n) fun _ _ hc hs => hc.step hs

/-- No run goes on forever. -/
theorem wellFounded_turns (items : List α) (f : α → Except ε ρ) :
    WellFounded fun q p : Pool Shared (Worker ρ ε) => Pool.Step (WorkerTurn items f) p q :=
  Pool.wellFounded_step (fun m => 4 * (items.length - m.cursor)) Worker.weight
    fun _ _ _ _ h => h.weight_lt

/-- A pool stops only where every worker is out of its loop. -/
theorem Consistent.done_of_stuck {p : Pool Shared (Worker ρ ε)} (hc : Consistent items f p)
    (hs : ¬ ∃ q, Pool.Step (WorkerTurn items f) p q) : ∀ w ∈ p.workers, w.phase = .done := by
  intro w hw
  by_contra hd
  apply hs
  rw [Pool.exists_step_iff]
  refine ⟨w, hw, WorkerTurn.exists_of_not_done items f p.shared hd ?_⟩
  intro index hi
  have hm : index ∈ p.workers.flatMap Worker.indices :=
    List.mem_flatMap.mpr ⟨w, hw, List.mem_append_right _ (List.mem_append_right _ hi)⟩
  have := List.mem_range.mp (hc.handed.mem_iff.mp hm)
  omega

/-- The cursor passes the last item at most once for each worker. -/
theorem cursor_le {p : Pool Shared (Worker ρ ε)} {n : Nat}
    (hr : Pool.Run (WorkerTurn items f) (spawn n) p) : p.shared.cursor ≤ items.length + n := by
  -- a worker that has fetched an index past the end is done, and stays so
  have h : p.shared.cursor ≤ items.length + (p.workers.countP fun w => w.phase = .done) := by
    apply hr.inv (P := fun p => p.shared.cursor ≤
      items.length + (p.workers.countP fun w => w.phase = .done)) (Nat.zero_le _)
    intro p q hp hs
    cases hs with
    | turn before after ht =>
      simp only [List.countP_append, List.countP_cons] at hp ⊢
      cases ht with
      | goOn hw | stop hw | claim hw | exhausted hw | record hw | fail hw =>
        simp only [hw, decide_false, decide_true, reduceCtorEq, Bool.false_eq_true, if_false,
          if_true] at hp ⊢
        omega
  have hle := List.countP_le_length (p := fun w : Worker ρ ε => decide (w.phase = .done))
    (l := p.workers)
  have hlen := hr.length_eq
  rw [show (spawn n : Pool Shared (Worker ρ ε)).workers.length = n from
    List.length_replicate] at hlen
  omega

/-! ## The serial loop -/

/-- The serial loop returns values when every item has one, and then all of them in order. -/
theorem serialMap_eq_ok {values : List ρ} :
    serialMap items f = .ok values ↔ items.map f = values.map .ok := by
  induction items generalizing values with
  | nil =>
    cases values with
    | nil => exact ⟨fun _ => rfl, fun _ => rfl⟩
    | cons => exact ⟨fun h => by simp [serialMap, pure, Except.pure] at h, fun h => by simp at h⟩
  | cons a items ih =>
    have hc : serialMap (a :: items) f =
        f a >>= fun v => serialMap items f >>= fun vs => pure (v :: vs) := List.mapM_cons
    rw [hc, bind_eq_ok]
    constructor
    · intro ⟨v, hv, h⟩
      obtain ⟨vs, hvs, h⟩ := bind_eq_ok.mp h
      rw [← Except.ok.inj h, List.map_cons, List.map_cons, hv, ih.mp hvs]
    · intro h
      cases values with
      | nil => simp at h
      | cons v vs =>
        obtain ⟨hv, hvs⟩ := List.cons.inj h
        exact ⟨v, hv, bind_eq_ok.mpr ⟨vs, ih.mpr hvs, rfl⟩⟩

/-- An item that fails while every item before it has a value. -/
def FailsFirst (items : List α) (f : α → Except ε ρ) (e : ε) : Prop :=
  ∃ (i : Nat) (item : α), items[i]? = some item ∧ f item = .error e ∧
    ∀ j < i, ∀ item, items[j]? = some item → ∃ v, f item = .ok v

theorem forall₂_of_serialMap {values : List ρ} (h : serialMap items f = .ok values) :
    List.Forall₂ (fun a v => f a = .ok v) items values := by
  have hmap : List.Forall₂ Eq (items.map f) (values.map Except.ok) := by
    rw [List.forall₂_eq_eq_eq]
    exact serialMap_eq_ok.mp h
  rwa [List.forall₂_map_left_iff, List.forall₂_map_right_iff] at hmap

/-- The serial loop fails with the error of the first item that has none. -/
theorem serialMap_eq_error {e : ε} : serialMap items f = .error e ↔ FailsFirst items f e := by
  induction items with
  | nil => exact ⟨fun h => (nomatch h), fun ⟨i, item, hi, _⟩ => by simp at hi⟩
  | cons a items ih =>
    have hc : serialMap (a :: items) f =
        f a >>= fun v => serialMap items f >>= fun vs => pure (v :: vs) := List.mapM_cons
    rw [hc, bind_eq_error]
    constructor
    · rintro (ha | ⟨v, ha, h⟩)
      · exact ⟨0, a, rfl, ha, fun j hj => absurd hj (Nat.not_lt_zero j)⟩
      · rcases bind_eq_error.mp h with h | ⟨vs, _, h⟩
        · obtain ⟨i, item, hi, hf, hlt⟩ := ih.mp h
          refine ⟨i + 1, item, hi, hf, ?_⟩
          intro j hj item hitem
          cases j with
          | zero => exact ⟨v, Option.some.inj hitem ▸ ha⟩
          | succ j => exact hlt j (by omega) item hitem
        · exact (nomatch h)
    · intro ⟨i, item, hi, hf, hlt⟩
      cases i with
      | zero => exact Or.inl (Option.some.inj hi ▸ hf)
      | succ i =>
        obtain ⟨v, ha⟩ := hlt 0 (Nat.succ_pos i) a rfl
        refine Or.inr ⟨v, ha, bind_eq_error.mpr (Or.inl (ih.mpr ⟨i, item, hi, hf, ?_⟩))⟩
        exact fun j hj item hitem => hlt (j + 1) (by omega) item hitem

/-! ## What the calling thread collects -/

theorem keepFirst_eq_none {first : Option (Nat × ε)} {w : Worker ρ ε} :
    keepFirst first w = none ↔ first = none ∧ w.error = none := by
  unfold keepFirst
  cases w.error with
  | none => exact ⟨fun h => ⟨h, rfl⟩, fun h => h.1⟩
  | some x =>
    cases first with
    | none => simp
    | some y =>
      simp only
      split <;> simp

theorem keepFirst_eq_some {first : Option (Nat × ε)} {w : Worker ρ ε} {x : Nat × ε}
    (h : keepFirst first w = some x) :
    (first = some x ∨ w.error = some x) ∧ (∀ y, first = some y → x.1 ≤ y.1) ∧
      ∀ y, w.error = some y → x.1 ≤ y.1 := by
  unfold keepFirst at h
  cases hw : w.error with
  | none =>
    rw [hw] at h
    have h : first = some x := h
    refine ⟨Or.inl h, ?_, fun y hy => (nomatch hy)⟩
    intro y hy
    rw [Option.some.inj (h.symm.trans hy)]
  | some z =>
    rw [hw] at h
    cases first with
    | none =>
      have h : some z = some x := h
      refine ⟨Or.inr h, fun y hy => (nomatch hy), ?_⟩
      intro y hy
      rw [Option.some.inj (h.symm.trans hy)]
    | some y =>
      have h : (if z.1 < y.1 then some z else some y) = some x := h
      split at h
      · rename_i hlt
        refine ⟨Or.inr h, ?_, ?_⟩
        · intro y' hy'
          rw [← Option.some.inj hy', ← Option.some.inj h]
          omega
        · intro z' hz'
          rw [← Option.some.inj hz', ← Option.some.inj h]
      · rename_i hlt
        refine ⟨Or.inl h, ?_, ?_⟩
        · intro y' hy'
          rw [← Option.some.inj hy', ← Option.some.inj h]
        · intro z' hz'
          rw [← Option.some.inj hz', ← Option.some.inj h]
          omega

theorem foldl_keepFirst_eq_none {first : Option (Nat × ε)} {ws : List (Worker ρ ε)} :
    ws.foldl keepFirst first = none ↔ first = none ∧ ∀ w ∈ ws, w.error = none := by
  induction ws generalizing first with
  | nil => simp
  | cons w ws ih =>
    rw [List.foldl_cons, ih, keepFirst_eq_none]
    simp [and_assoc]

theorem foldl_keepFirst_eq_some {first : Option (Nat × ε)} {ws : List (Worker ρ ε)}
    {x : Nat × ε} (h : ws.foldl keepFirst first = some x) :
    (first = some x ∨ ∃ w ∈ ws, w.error = some x) ∧ (∀ y, first = some y → x.1 ≤ y.1) ∧
      ∀ w ∈ ws, ∀ y, w.error = some y → x.1 ≤ y.1 := by
  induction ws generalizing first with
  | nil =>
    have h : first = some x := h
    refine ⟨Or.inl h, ?_, fun w hw => absurd hw List.not_mem_nil⟩
    intro y hy
    rw [Option.some.inj (h.symm.trans hy)]
  | cons w ws ih =>
    obtain ⟨hx, hlow, hws⟩ := ih h
    -- the error kept after the first worker is bounded by what went into it
    have hkeep : (∀ y, first = some y → x.1 ≤ y.1) ∧ ∀ y, w.error = some y → x.1 ≤ y.1 := by
      cases hk : keepFirst first w with
      | none =>
        obtain ⟨h1, h2⟩ := keepFirst_eq_none.mp hk
        exact ⟨fun y hy => (nomatch h1.symm.trans hy), fun y hy => (nomatch h2.symm.trans hy)⟩
      | some z =>
        obtain ⟨_, h1, h2⟩ := keepFirst_eq_some hk
        have hz := hlow z hk
        exact ⟨fun y hy => Nat.le_trans hz (h1 y hy), fun y hy => Nat.le_trans hz (h2 y hy)⟩
    refine ⟨?_, hkeep.1, ?_⟩
    · rcases hx with hx | ⟨v, hv, hx⟩
      · rcases (keepFirst_eq_some hx).1 with hf | hw
        · exact Or.inl hf
        · exact Or.inr ⟨w, List.mem_cons_self, hw⟩
      · exact Or.inr ⟨v, List.mem_cons_of_mem _ hv, hx⟩
    · intro v hv
      rcases List.mem_cons.mp hv with rfl | hv
      · exact hkeep.2
      · exact hws v hv

/-- With no error left behind, the values are those of all items, in order. -/
theorem producedInOrder_map {ws : List (Worker ρ ε)} (hs : ∀ w ∈ ws, w.Sound items f)
    (hi : ws.flatMap Worker.indices ~ List.range items.length)
    (he : ∀ w ∈ ws, w.error = none) (hd : ∀ w ∈ ws, w.phase = .done) :
    items.map f = ((producedInOrder ws).map Prod.snd).map .ok := by
  have hperm : producedInOrder ws ~ ws.flatMap Worker.produced := List.perm_insertionSort _ _
  have hkeys : (ws.flatMap Worker.produced).map Prod.fst = ws.flatMap Worker.indices := by
    rw [List.map_flatMap]
    apply List.flatMap_congr
    intro w hw
    simp [Worker.indices, Worker.inHand, he w hw, hd w hw]
  -- the keys are the indices of the items, and they are sorted
  have hsorted : (producedInOrder ws).map Prod.fst = List.range items.length := by
    have h1 : (producedInOrder ws).map Prod.fst ~ List.range items.length := by
      refine (hperm.map Prod.fst).trans ?_
      rw [hkeys]
      exact hi
    have h2 : ((producedInOrder ws).map Prod.fst).Pairwise (· ≤ ·) := by
      rw [List.pairwise_map]
      exact List.pairwise_insertionSort _ _
    exact h1.eq_of_pairwise (fun a b _ _ hab hba => Nat.le_antisymm hab hba) h2
      List.pairwise_le_range
  have hvals : ∀ x ∈ producedInOrder ws, items[x.1]?.map f = some (.ok x.2) := by
    intro x hx
    obtain ⟨w, hw, hxw⟩ := List.mem_flatMap.mp (hperm.mem_iff.mp hx)
    obtain ⟨item, hitem, hf⟩ := (hs w hw).1 x hxw
    rw [hitem, Option.map_some, hf]
  apply List.ext_getElem?
  intro i
  rw [List.getElem?_map, List.map_map, List.getElem?_map]
  by_cases hlt : i < items.length
  · have hlen : i < (producedInOrder ws).length := by
      rw [← List.length_map (f := Prod.fst), hsorted, List.length_range]
      exact hlt
    have hkey : (producedInOrder ws)[i].1 = i := by
      have : ((producedInOrder ws).map Prod.fst)[i]? = some i := by
        rw [hsorted, List.getElem?_range hlt]
      rw [List.getElem?_map, List.getElem?_eq_getElem hlen] at this
      exact Option.some.inj this
    have hv := hvals _ (List.getElem_mem hlen)
    rw [hkey] at hv
    rw [hv, List.getElem?_eq_getElem hlen]
    rfl
  · have hlen : (producedInOrder ws).length ≤ i := by
      rw [← List.length_map (f := Prod.fst), hsorted, List.length_range]
      omega
    rw [List.getElem?_eq_none hlen, List.getElem?_eq_none (Nat.le_of_not_lt hlt)]
    rfl

/-- Once every worker is out of its loop, what they leave is what the serial
loop returns: a failing worker cannot have kept a lower index from being
evaluated, since a claimed index is evaluated before its worker looks at the
flag again. -/
theorem collectOutcomes_eq {p : Pool Shared (Worker ρ ε)} (hc : Consistent items f p)
    (hd : ∀ w ∈ p.workers, w.phase = .done) (hne : p.workers ≠ []) :
    collectOutcomes p.workers = serialMap items f := by
  cases he : firstError p.workers with
  | none =>
    have herr := (foldl_keepFirst_eq_none.mp he).2
    obtain ⟨w, hw⟩ := List.exists_mem_of_ne_nil _ hne
    have hlen : items.length ≤ p.shared.cursor := by
      rcases hc.halted w hw (hd w hw) with h | h | h
      · rw [herr w hw] at h
        exact Bool.noConfusion h
      · obtain ⟨v, hv, h⟩ := hc.raised h
        rw [herr v hv] at h
        exact Bool.noConfusion h
      · exact h
    have hi := hc.handed
    rw [Nat.min_eq_right hlen] at hi
    have hm := producedInOrder_map hc.sound hi herr hd
    rw [collectOutcomes, he]
    exact (serialMap_eq_ok.mpr hm).symm
  | some x =>
    obtain ⟨hx, _, hlow⟩ := foldl_keepFirst_eq_some he
    rcases hx with hx | ⟨w, hw, hx⟩
    · exact (nomatch hx)
    obtain ⟨item, hitem, hf⟩ := (hc.sound w hw).2 x hx
    rw [collectOutcomes, he]
    refine (serialMap_eq_error.mpr ⟨x.1, item, hitem, hf, ?_⟩).symm
    intro j hj item' hitem'
    have hxi : x.1 ∈ p.workers.flatMap Worker.indices :=
      List.mem_flatMap.mpr ⟨w, hw, by simp [Worker.indices, hx]⟩
    have hxlt := List.mem_range.mp (hc.handed.mem_iff.mp hxi)
    have hji : j ∈ p.workers.flatMap Worker.indices :=
      hc.handed.mem_iff.mpr (List.mem_range.mpr (Nat.lt_trans hj hxlt))
    obtain ⟨v, hv, hjv⟩ := List.mem_flatMap.mp hji
    have hhand : v.inHand = [] := by simp [Worker.inHand, hd v hv]
    rw [Worker.indices, hhand, List.append_nil] at hjv
    rcases List.mem_append.mp hjv with hjv | hjv
    · obtain ⟨y, hy, hyj⟩ := List.mem_map.mp hjv
      obtain ⟨_, hitemy, hfy⟩ := (hc.sound v hv).1 y hy
      rw [hyj, hitem'] at hitemy
      exact ⟨y.2, Option.some.inj hitemy ▸ hfy⟩
    · obtain ⟨y, hy, hyj⟩ := List.mem_map.mp hjv
      have := hlow v hv y (Option.mem_toList.mp hy)
      omega

/-! ## The result -/

/-- What the workers leave, whichever run they took. -/
theorem collectOutcomes_of_run {jobs : Jobs} {p : Pool Shared (Worker ρ ε)}
    (hj : ¬ (jobs.isSerial = true ∨ items.length < 2))
    (hr : Pool.Run (WorkerTurn items f) (spawn (min jobs.get items.length)) p)
    (hd : ∀ w ∈ p.workers, w.phase = .done) :
    collectOutcomes p.workers = serialMap items f := by
  apply collectOutcomes_eq (consistent_of_run hr) hd
  intro hn
  have hlen : p.workers.length = min jobs.get items.length :=
    hr.length_eq.trans List.length_replicate
  rw [hn, List.length_nil] at hlen
  have := jobs.pos
  omega

/-- The two modes agree on whatever either may return. -/
theorem tryMap_iff {jobs : Jobs} {r : Except ε (List ρ)} :
    TryMap jobs items f r ↔ r = serialMap items f := by
  constructor
  · intro h
    cases h with
    | serial => rfl
    | joined hj hr hd => exact collectOutcomes_of_run hj hr hd
  · intro h
    subst h
    by_cases hj : jobs.isSerial = true ∨ items.length < 2
    · exact .serial hj
    · obtain ⟨p, hr, hs⟩ := Pool.exists_stuck (wellFounded_turns items f)
        (spawn (min jobs.get items.length))
      have hd := (consistent_of_run hr).done_of_stuck hs
      rw [← collectOutcomes_of_run hj hr hd]
      exact .joined hj hr hd

/-- Whatever the number of jobs and the order of the workers' steps, the
parallel map returns what the serial loop does, and it does return. -/
theorem tryMap_deterministic (jobs : Jobs) (items : List α) (f : α → Except ε ρ) :
    (∀ r, TryMap jobs items f r ↔ r = serialMap items f) ∧
      (∀ p, Pool.Run (WorkerTurn items f) (spawn (min jobs.get items.length)) p →
        (¬ ∃ q, Pool.Step (WorkerTurn items f) p q) → ∀ w ∈ p.workers, w.phase = .done) ∧
      (WellFounded fun q p : Pool Shared (Worker ρ ε) => Pool.Step (WorkerTurn items f) p q) ∧
      (∀ values, serialMap items f = .ok values ↔ items.map f = values.map .ok) ∧
      ∀ e, serialMap items f = .error e ↔ FailsFirst items f e := by
  refine ⟨fun r => tryMap_iff, ?_, wellFounded_turns items f, fun values => serialMap_eq_ok,
    fun e => serialMap_eq_error⟩
  exact fun p hr hs => (consistent_of_run hr).done_of_stuck hs

end CapaX
