import CapaX.Recovery.Libraries

/-
  Which name an address keeps while library functions are recognized. The maps that a run records
  are those that its namings write, one entry at a time (`Applied`), so a name is changed exactly
  when a naming disagrees with what was recognized before it, or with itself.

  `identify_firstWins_iff`: in a run the first name of every address stands if and only if every
  naming agrees. A naming can disagree: its signature may give another name to a function that an
  earlier database recognized (`identify_renames`).
-/

namespace CapaX.Recovery

open Collections Control Control.Run

variable {A : Architecture}

/-! ## Writing names -/

abbrev Recognized := OrdMap UInt64 String

def write (m : Recognized) (w : UInt64 × String) : Recognized := m.upsert w.1 fun _ => w.2

/-- The maps on the way of writing some entries. -/
def recordAll : Recognized → List (UInt64 × String) → List Recognized
  | _, [] => []
  | m, w :: ws => write m w :: recordAll (write m w) ws

/-- Every name stands in the later map. -/
def Kept (m m' : Recognized) : Prop := ∀ a name, m.get? a = some name → m'.get? a = some name

/-- What is written gives no address another name than it has, and no address two names. -/
def Consistent (m : Recognized) (ws : List (UInt64 × String)) : Prop :=
  ∀ w ∈ ws, (∀ name, m.get? w.1 = some name → name = w.2) ∧ ∀ w' ∈ ws, w'.1 = w.1 → w'.2 = w.2

instance (m : Recognized) (ws : List (UInt64 × String)) : Decidable (Consistent m ws) :=
  decidable_of_iff (∀ w ∈ ws, (m.get? w.1).all (fun name => decide (name = w.2)) = true ∧
    ∀ w' ∈ ws, w'.1 = w.1 → w'.2 = w.2) <| by
      simp only [Consistent, Option.all_eq_true, decide_eq_true_eq]

theorem Kept.trans {m m' m'' : Recognized} (h : Kept m m') (h' : Kept m' m'') : Kept m m'' :=
  fun a name ha => h' a name (h a name ha)

instance : Trans Kept Kept Kept := ⟨Kept.trans⟩

theorem get?_write (m : Recognized) (w : UInt64 × String) (a : UInt64) :
    (write m w).get? a = if a = w.1 then some w.2 else m.get? a := OrdMap.get?_upsert _ _ _ _

theorem kept_write_iff {m : Recognized} {w : UInt64 × String} :
    Kept m (write m w) ↔ ∀ name, m.get? w.1 = some name → name = w.2 := by
  constructor
  · intro h name hname
    have hkept := h w.1 name hname
    rw [get?_write, if_pos rfl, Option.some.injEq] at hkept
    exact hkept.symm
  · intro h a name ha
    rw [get?_write]
    by_cases hw : a = w.1
    · rw [if_pos hw, ← h name (hw ▸ ha)]
    · rw [if_neg hw]
      exact ha

theorem consistent_cons_iff {m : Recognized} {w : UInt64 × String} {ws : List (UInt64 × String)} :
    Consistent m (w :: ws) ↔
      (∀ name, m.get? w.1 = some name → name = w.2) ∧ Consistent (write m w) ws := by
  constructor
  · intro h
    obtain ⟨hw, hsame⟩ := h w List.mem_cons_self
    refine ⟨hw, fun v hv => ?_⟩
    obtain ⟨hv', hsame'⟩ := h v (List.mem_cons_of_mem w hv)
    refine ⟨fun name hname => ?_, fun v' hv'' => hsame' v' (List.mem_cons_of_mem w hv'')⟩
    rw [get?_write] at hname
    by_cases hwv : v.1 = w.1
    · rw [if_pos hwv, Option.some.injEq] at hname
      rw [← hname]
      exact hsame' w List.mem_cons_self hwv.symm
    · rw [if_neg hwv] at hname
      exact hv' name hname
  · rintro ⟨hw, h⟩
    have hother : ∀ v ∈ ws, v.1 = w.1 → w.2 = v.2 := by
      intro v hv hvw
      refine (h v hv).1 w.2 ?_
      rw [get?_write, if_pos hvw]
    intro v hmem
    rcases List.mem_cons.mp hmem with rfl | hv
    · refine ⟨hw, fun v' hmem' he => ?_⟩
      rcases List.mem_cons.mp hmem' with rfl | hv'
      · rfl
      · exact (hother v' hv' he).symm
    · refine ⟨fun name hname => ?_, fun v' hmem' he => ?_⟩
      · by_cases hwv : v.1 = w.1
        · rw [← hother v hv hwv]
          exact hw name (hwv ▸ hname)
        · refine (h v hv).1 name ?_
          rw [get?_write, if_neg hwv]
          exact hname
      · rcases List.mem_cons.mp hmem' with rfl | hv'
        · exact hother v hv he.symm
        · exact (h v hv).2 v' hv' he

theorem get?_foldl_write {m : Recognized} {ws : List (UInt64 × String)} {a : UInt64}
    (h : ∀ w ∈ ws, w.1 ≠ a) : (ws.foldl write m).get? a = m.get? a := by
  induction ws generalizing m with
  | nil => rfl
  | cons w ws ih =>
    rw [List.foldl_cons, ih fun v hv => h v (List.mem_cons_of_mem w hv), get?_write,
      if_neg (h w List.mem_cons_self).symm]

theorem recordAll_append (m : Recognized) (ws ws' : List (UInt64 × String)) :
    recordAll m (ws ++ ws') = recordAll m ws ++ recordAll (ws.foldl write m) ws' := by
  induction ws generalizing m with
  | nil => rfl
  | cons w ws ih => exact congrArg (write m w :: ·) (ih (write m w))

/-- Names stand while entries are written exactly when these are consistent. -/
theorem chain_recordAll (m : Recognized) (ws : List (UInt64 × String)) (rest : List Recognized) :
    (m :: (recordAll m ws ++ rest)).IsChain Kept ↔
      Consistent m ws ∧ (ws.foldl write m :: rest).IsChain Kept := by
  induction ws generalizing m with
  | nil => exact (and_iff_right nofun).symm
  | cons w ws ih =>
    rw [recordAll, List.cons_append, List.isChain_cons_cons, ih, kept_write_iff,
      consistent_cons_iff, List.foldl_cons]
    tauto

/-! ## Namings -/

/-- The entry that a name writes, when its address takes it. -/
def MatcherContext.written (ctx : MatcherContext A) (base : UInt64) (entry : Name × Bool) :
    Option (UInt64 × String) :=
  (namedAddress base entry.1).bind fun address =>
    if ctx.accepts base entry.2 address then some (address, entry.1.name) else none

namespace Naming

/-- The entries that a naming writes: its names at the addresses that take them. -/
def writes (naming : Naming A) : List (UInt64 × String) :=
  (MatcherContext.appliedNames naming.signature).filterMap (naming.ctx.written naming.base)

/-- The addresses that take a name of the signature are not recognized yet, or under that name, and
    the signature gives none of them two names. -/
def Agrees (naming : Naming A) : Prop := Consistent naming.recognized naming.writes

/-- Away from the matched function, no name lands on one that is recognized under another name. -/
def SparesRecognized (naming : Naming A) : Prop :=
  ∀ w ∈ naming.writes, w.1 ≠ naming.base →
    ∀ name, naming.recognized.get? w.1 = some name → name = w.2

/-- Away from the matched function, no name lands on one that is still being matched. -/
def SparesPending (naming : Naming A) : Prop :=
  ∀ w ∈ naming.writes, w.1 ≠ naming.base → naming.cache.get? w.1 ≠ some .visiting

/-- The signature gives no address two names. -/
def NamesOnce (naming : Naming A) : Prop :=
  ∀ w ∈ naming.writes, ∀ w' ∈ naming.writes, w'.1 = w.1 → w'.2 = w.2

/-- Nothing is asked of the name of the matched function itself. -/
def Tame (naming : Naming A) : Prop :=
  naming.SparesRecognized ∧ naming.SparesPending ∧ naming.NamesOnce

instance (naming : Naming A) : Decidable naming.SparesRecognized :=
  decidable_of_iff (∀ w ∈ naming.writes, w.1 ≠ naming.base →
    (naming.recognized.get? w.1).all (fun name => decide (name = w.2)) = true) <| by
      simp only [SparesRecognized, Option.all_eq_true, decide_eq_true_eq]

instance (naming : Naming A) : Decidable naming.SparesPending :=
  inferInstanceAs (Decidable (∀ w ∈ _, _ ≠ _ → _ ≠ _))

instance (naming : Naming A) : Decidable naming.NamesOnce :=
  inferInstanceAs (Decidable (∀ w ∈ _, ∀ w' ∈ _, _ = _ → _ = _))

instance (naming : Naming A) : Decidable naming.Tame :=
  inferInstanceAs (Decidable (_ ∧ _ ∧ _))

/-- A tame naming agrees when the matched function itself is not recognized. -/
theorem Tame.agrees {naming : Naming A} (h : naming.Tame)
    (hbase : naming.recognized.get? naming.base = none) : naming.Agrees := by
  obtain ⟨hspares, -, honce⟩ := h
  refine fun w hw => ⟨fun name hname => ?_, honce w hw⟩
  by_cases haway : w.1 = naming.base
  · rw [haway, hbase] at hname
    cases hname
  · exact hspares w hw haway name hname

theorem Agrees.spares {naming : Naming A} (h : naming.Agrees) :
    naming.SparesRecognized ∧ naming.NamesOnce :=
  ⟨fun w hw _ => (h w hw).1, fun w hw => (h w hw).2⟩

def events (naming : Naming A) : List (NameEvent A) :=
  .applying naming :: (recordAll naming.recognized naming.writes).map .recorded

end Naming

/-- Namings one after the other, each from what the one before left. -/
def Applied : Recognized → List (Naming A) → Recognized → Prop
  | m, [], m' => m' = m
  | m, naming :: namings, m' =>
    naming.recognized = m ∧ Applied (naming.writes.foldl write m) namings m'

theorem Applied.append {m m' m'' : Recognized} {ns ns' : List (Naming A)} (h : Applied m ns m')
    (h' : Applied m' ns' m'') : Applied m (ns ++ ns') m'' := by
  induction ns generalizing m with
  | nil =>
    have he : m' = m := h
    rw [← he]
    exact h'
  | cons n ns ih => exact ⟨h.1, ih h.2⟩

theorem foldl_write_eq (m : Recognized) (ws : List (UInt64 × String)) :
    ws.foldl write m = (recordAll m ws).getLast?.getD m := by
  induction ws generalizing m with
  | nil => rfl
  | cons w ws ih =>
    rw [List.foldl_cons, ih, recordAll, List.getLast?_cons]
    rfl

/-- The map left at last is the last one written. -/
theorem Applied.last {m m' : Recognized} {ns : List (Naming A)} (h : Applied m ns m') :
    m' = (ns.flatMap fun n => recordAll n.recognized n.writes).getLast?.getD m := by
  induction ns generalizing m with
  | nil => exact h
  | cons n ns ih =>
    obtain ⟨rfl, hrest⟩ := h
    rw [ih hrest, List.flatMap_cons, List.getLast?_append, foldl_write_eq]
    cases (ns.flatMap fun n => recordAll n.recognized n.writes).getLast? <;> rfl

/-- Every naming of a run. -/
def EachNaming (P : Naming A → Prop) (log : List (NameEvent A)) : Prop :=
  ∀ naming, .applying naming ∈ log → P naming

theorem eachNaming_append {P : Naming A → Prop} {log log' : List (NameEvent A)} :
    EachNaming P (log ++ log') ↔ EachNaming P log ∧ EachNaming P log' := by
  simp only [EachNaming, List.mem_append, or_imp, forall_and]

/-- The maps a run records. -/
def recordedMaps (log : List (NameEvent A)) : List Recognized :=
  log.filterMap fun event =>
    match event with
    | .recorded recognized => some recognized
    | .applying _ => none

/-- The first name of every address stands in every map that is recorded later. -/
def FirstWins (log : List (NameEvent A)) : Prop := (∅ :: recordedMaps log).Pairwise Kept

theorem recordedMaps_events (n : Naming A) :
    recordedMaps n.events = recordAll n.recognized n.writes := by
  show ((recordAll n.recognized n.writes).map NameEvent.recorded).filterMap _ = _
  rw [List.filterMap_map]
  exact List.filterMap_some

theorem recordedMaps_flatMap (ns : List (Naming A)) :
    recordedMaps (ns.flatMap Naming.events) =
      ns.flatMap fun n => recordAll n.recognized n.writes := by
  induction ns with
  | nil => rfl
  | cons n ns ih =>
    rw [List.flatMap_cons, List.flatMap_cons, ← ih, ← recordedMaps_events]
    exact List.filterMap_append

theorem eachNaming_events {P : Naming A → Prop} {n : Naming A} :
    EachNaming P n.events ↔ P n := by
  refine ⟨fun h => h n List.mem_cons_self, fun h naming hmem => ?_⟩
  rcases List.mem_cons.mp hmem with he | hmem
  · rw [NameEvent.applying.inj he]
    exact h
  · obtain ⟨_, _, he⟩ := List.mem_map.mp hmem
    cases he

theorem eachNaming_flatMap {P : Naming A → Prop} {ns : List (Naming A)} :
    EachNaming P (ns.flatMap Naming.events) ↔ ∀ n ∈ ns, P n := by
  induction ns with
  | nil => exact iff_of_true nofun nofun
  | cons n ns ih =>
    rw [List.flatMap_cons, eachNaming_append, eachNaming_events, ih, List.forall_mem_cons]

theorem Applied.chain_iff {m m' : Recognized} {ns : List (Naming A)} (h : Applied m ns m') :
    (m :: ns.flatMap fun n => recordAll n.recognized n.writes).IsChain Kept ↔
      ∀ n ∈ ns, n.Agrees := by
  induction ns generalizing m with
  | nil => exact iff_of_true (List.isChain_singleton m) nofun
  | cons n ns ih =>
    obtain ⟨rfl, hrest⟩ := h
    rw [List.flatMap_cons, chain_recordAll, ih hrest, List.forall_mem_cons]
    rfl

/-! ## Runs -/

/-- What a run logs is a sequence of namings, which lead from what is recognized at its start to
    what is at its end. -/
def Records (s : MatcherState) (log : List (NameEvent A)) (t : MatcherState) : Prop :=
  ∃ ns : List (Naming A), log = ns.flatMap Naming.events ∧ Applied s.recognized ns t.recognized

theorem composes_records : Composes (Records (A := A)) where
  refl _ := ⟨[], rfl, rfl⟩
  trans := by
    rintro s t u l l' ⟨ns, rfl, h⟩ ⟨ns', rfl, h'⟩
    exact ⟨ns ++ ns', List.flatMap_append.symm, h.append h'⟩

namespace MatcherContext

variable (ctx : MatcherContext A)

theorem traces_remember (address : UInt64) (entry : CacheEntry) :
    Traces Records (remember address entry : MatchRun A Unit) :=
  traces_of_ok _ fun _ => ⟨(), _, rfl, [], rfl, rfl⟩

theorem applyName_spec (base : UInt64) (entry : Name × Bool) (s : MatcherState) :
    ∃ t ws, ws = (ctx.written base entry).toList ∧
      ctx.applyName base entry s = ⟨(recordAll s.recognized ws).map .recorded, .ok ((), t)⟩ ∧
      t.recognized = ws.foldl write s.recognized ∧
      ∀ a, (∀ w ∈ ws, w.1 ≠ a) → t.cache.get? a = s.cache.get? a := by
  unfold applyName written
  cases namedAddress base entry.1 with
  | none => exact ⟨s, [], rfl, rfl, rfl, fun _ _ => rfl⟩
  | some address =>
    dsimp only [Option.bind_some]
    -- whether the address starts a function changes the local starts only
    by_cases haccept : ctx.accepts base entry.2 address = true
    · have hcache : ∀ a, (∀ w ∈ [(address, entry.1.name)], w.1 ≠ a) →
          (s.cache.upsert address fun _ => .complete (some entry.1.name)).get? a =
            s.cache.get? a := by
        intro a ha
        rw [OrdMap.get?_upsert, if_neg (ha _ List.mem_cons_self).symm]
      rw [if_pos haccept, if_pos haccept]
      split <;> exact ⟨_, _, rfl, rfl, rfl, hcache⟩
    · rw [if_neg haccept, if_neg haccept]
      split <;> exact ⟨_, _, rfl, rfl, rfl, fun _ _ => rfl⟩

theorem forEach_applyName_spec (base : UInt64) (entries : List (Name × Bool)) (s : MatcherState) :
    ∃ t ws, ws = entries.filterMap (ctx.written base) ∧ forEach (ctx.applyName base) entries s =
        ⟨(recordAll s.recognized ws).map .recorded, .ok ((), t)⟩ ∧
      t.recognized = ws.foldl write s.recognized ∧
      ∀ a, (∀ w ∈ ws, w.1 ≠ a) → t.cache.get? a = s.cache.get? a := by
  induction entries generalizing s with
  | nil => exact ⟨s, [], rfl, rfl, rfl, fun _ _ => rfl⟩
  | cons entry entries ih =>
    obtain ⟨t, ws, hws, hrun, ht, hcache⟩ := ctx.applyName_spec base entry s
    obtain ⟨u, ws', hws', hrun', hu, hcache'⟩ := ih t
    refine ⟨u, ws ++ ws', ?_, ?_, ?_, fun a ha => ?_⟩
    · rw [hws, hws', List.filterMap_cons]
      cases ctx.written base entry <;> rfl
    · rw [recordAll_append, List.map_append, ← ht]
      show (ctx.applyName base entry >>= fun _ => forEach (ctx.applyName base) entries) s = _
      rw [bind_apply, hrun]
      show Logged.mk (_ ++ (forEach (ctx.applyName base) entries t).log)
        (forEach (ctx.applyName base) entries t).outcome = _
      rw [hrun']
    · rw [List.foldl_append, ← ht, hu]
    · rw [hcache' a fun w hw => ha w (List.mem_append_right ws hw),
        hcache a fun w hw => ha w (List.mem_append_left ws' hw)]

/-- Applying the names of a signature logs the naming, and changes what it writes. -/
theorem applyNames_spec (base : UInt64) (signature : FlirtSignature) (s : MatcherState) :
    ∃ naming t, naming = Naming.mk ctx base signature s.recognized s.cache ∧
      ctx.applyNames base signature s = ⟨naming.events, .ok ((), t)⟩ ∧
      t.recognized = naming.writes.foldl write s.recognized ∧
      ∀ a, (∀ w ∈ naming.writes, w.1 ≠ a) → t.cache.get? a = s.cache.get? a := by
  obtain ⟨t, ws, hws, hrun, ht, hcache⟩ :=
    ctx.forEach_applyName_spec base (appliedNames signature) s
  subst hws
  refine ⟨_, t, rfl, ?_, ht, hcache⟩
  show Logged.mk (_ :: (forEach (ctx.applyName base) (appliedNames signature) s).log)
    (forEach (ctx.applyName base) (appliedNames signature) s).outcome = _
  rw [hrun]
  rfl

theorem traces_applyNames (base : UInt64) (signature : FlirtSignature) :
    Traces Records (ctx.applyNames base signature) := by
  refine traces_of_ok _ fun s => ?_
  obtain ⟨naming, t, rfl, hrun, ht, -⟩ := ctx.applyNames_spec base signature s
  rw [hrun]
  exact ⟨(), t, rfl, [_], (List.flatMap_singleton _ _).symm, rfl, ht⟩

end MatcherContext

/-! ## Matching, part by part -/

namespace MatcherContext

section

variable {ctx : MatcherContext A} {P : ∀ α : Type, MatchRun A α → Prop} (hP : Compositional P)
  (hremember : ∀ address entry, P Unit (remember address entry))
  (happly : ∀ address signature, P Unit (ctx.applyNames address signature))
  (hfail : ∀ {α : Type} (e : FlirtError), P α (Run.fail (.error e)))
  {matchTarget : UInt64 → MatchRun A (Option String)}
  (htarget : ∀ address, P _ (matchTarget address))

include hP htarget in
theorem anyNamed_of (name : String) (targets : List UInt64) :
    P Bool (anyNamed matchTarget name targets) := by
  induction targets with
  | nil => exact hP.pure false
  | cons target targets ih =>
    refine hP.bind (htarget target) fun found => ?_
    split
    · exact hP.pure true
    · exact ih

include hP htarget in
theorem referencesMatch_of (address : UInt64) (symbols : List Symbol) :
    P Bool (ctx.referencesMatch matchTarget address symbols) := by
  induction symbols with
  | nil => exact hP.pure true
  | cons symbol symbols ih =>
    cases symbol with
    | reference reference =>
      unfold referencesMatch
      split
      · exact hP.pure false
      · split
        · split
          · exact ih
          · exact hP.pure false
        · refine hP.bind (anyNamed_of hP htarget _ _) fun matched => ?_
          split
          · exact ih
          · exact hP.pure false
    | «public» => exact ih
    | «local» => exact ih

include hP hremember happly hfail in
theorem concludeMatch_of (address : UInt64) (valid : List FlirtSignature) :
    P (Option String) (ctx.concludeMatch address valid) := by
  have hrecall (name : Option String) : P (Option String) (do
      let s ← get
      remember address (.complete ((s.recognized.get? address).or name))
      pure ((s.recognized.get? address).or name)) :=
    hP.bind hP.get fun s => hP.bind (hremember _ _) fun _ => hP.pure _
  unfold concludeMatch
  split
  · exact hfail _
  · dsimp only
    split
    · exact hP.bind (happly _ _) fun _ => hrecall _
    · exact hrecall _

include hP hremember happly hfail htarget in
/-- What the parts of matching have, and what the matching of targets has, matching has. -/
theorem matchBytes_of (address : UInt64) :
    P (Option String) (ctx.matchBytes matchTarget address) := by
  unfold matchBytes
  split
  · exact hP.bind (hremember _ _) fun _ => hP.pure _
  · split
    · exact hfail _
    · refine hP.bind (hP.keepIf (fun candidate => ?_) _) fun valid =>
        concludeMatch_of hP hremember happly hfail address valid
      exact referencesMatch_of hP htarget address candidate.names

end

/-- A match is answered at once, or it begins to match a function it has no answer for. -/
theorem matchFunction_succ (ctx : MatcherContext A) (fuel : Nat) (address : UInt64)
    (s : MatcherState) :
    (∃ name, ctx.matchFunction (fuel + 1) address s = (pure name : MatchRun A _) s) ∨
    (s.recognized.get? address = none ∧ ctx.functionExists address = true ∧
      s.cache.get? address = none ∧ ctx.matchFunction (fuel + 1) address s =
        (remember address .visiting >>= fun _ =>
          ctx.matchBytes (ctx.matchFunction fuel) address) s) := by
  rw [matchFunction, Run.get_bind_apply]
  cases hname : s.recognized.get? address with
  | some name => exact Or.inl ⟨some name, rfl⟩
  | none =>
    by_cases hexists : ctx.functionExists address = true
    · cases hentry : s.cache.get? address with
      | none => exact Or.inr ⟨rfl, hexists, rfl, by rw [if_pos hexists]⟩
      | some entry =>
        cases entry with
        | visiting => exact Or.inl ⟨none, by rw [if_pos hexists]⟩
        | complete name => exact Or.inl ⟨name, by rw [if_pos hexists]⟩
    · exact Or.inl ⟨none, by rw [if_neg hexists]⟩

theorem traces_matchFunction (ctx : MatcherContext A) (fuel : Nat) (address : UInt64) :
    Traces Records (ctx.matchFunction fuel address) := by
  induction fuel generalizing address with
  | zero => exact traces_fail composes_records _
  | succ fuel ih =>
    intro s
    have hP := traces_compositional (φ := Stop) (composes_records (A := A))
    rcases ctx.matchFunction_succ fuel address s with ⟨name, he⟩ | ⟨-, -, -, he⟩
    · rw [he]
      exact hP.pure name s
    · rw [he]
      refine hP.bind (traces_remember _ _) (fun _ => ?_) s
      exact matchBytes_of hP traces_remember ctx.traces_applyNames
        (fun e => traces_fail composes_records (Stop.error e)) ih address

end MatcherContext

section

variable (analysis : LibraryView A)
  (reorder : List FlirtSignature → List UInt8 → Option (List FlirtSignature))

theorem traces_tryDatabases (fuel : Nat) (address : UInt64) (databases : List SignatureDatabase) :
    Traces Records (tryDatabases analysis reorder fuel address databases) := by
  have hP := traces_compositional (φ := Stop) (composes_records (A := A))
  induction databases with
  | nil => exact hP.pure ()
  | cons database databases ih =>
    refine hP.bind hP.get fun s => ?_
    split
    · exact hP.pure ()
    · refine hP.bind (traces_of_ok _ fun _ => ⟨(), _, rfl, [], rfl, rfl⟩) fun _ => ?_
      exact hP.bind (MatcherContext.traces_matchFunction _ fuel address) fun _ => ih

theorem traces_identifyWithLocalStarts (databases : List SignatureDatabase) :
    Traces Records (identifyWithLocalStarts analysis reorder databases) := by
  have hP := traces_compositional (φ := Stop) (composes_records (A := A))
  unfold identifyWithLocalStarts
  split
  · exact hP.pure _
  · refine hP.bind (hP.forEach (fun address => ?_) _) fun _ => ?_
    · exact traces_tryDatabases analysis reorder _ address databases
    · exact hP.bind hP.get fun s => hP.pure _

/-- What a run returns as recognized is the last map it recorded. -/
theorem identify_recognized {databases : List SignatureDatabase}
    {found : OrdMap UInt64 String × OrdSet UInt64} {s : MatcherState}
    (h : (identify analysis reorder databases).outcome = .ok (found, s)) :
    found.1 = (recordedMaps (identify analysis reorder databases).log).getLast?.getD ∅ := by
  obtain ⟨ns, hlog, happlied⟩ :=
    (traces_identifyWithLocalStarts analysis reorder databases ⟨∅, ∅, ∅⟩).ended found s h
  have hlog' : (identify analysis reorder databases).log = ns.flatMap Naming.events := hlog
  rw [hlog', recordedMaps_flatMap, ← happlied.last]
  unfold identify identifyWithLocalStarts at h
  split at h
  · cases h
    rfl
  · rw [bind_apply, Logged.andThen] at h
    split at h
    · cases h
    · cases h
      rfl

/-- In a run, the first name of every address stands exactly when every naming agrees. -/
theorem firstWins_iff_agrees (databases : List SignatureDatabase) :
    FirstWins (identify analysis reorder databases).log ↔
      EachNaming Naming.Agrees (identify analysis reorder databases).log := by
  obtain ⟨t, ns, hlog, h⟩ :=
    (traces_identifyWithLocalStarts analysis reorder databases ⟨∅, ∅, ∅⟩).begun
  have hlog' : (identify analysis reorder databases).log = ns.flatMap Naming.events := hlog
  rw [hlog', FirstWins, recordedMaps_flatMap, ← List.isChain_iff_pairwise, h.chain_iff]
  exact eachNaming_flatMap.symm

end

/-! ## The two checks -/

/-- The function is being matched, and has no name yet. -/
def BeingMatched (s : MatcherState) (a : UInt64) : Prop :=
  s.cache.get? a = some .visiting ∧ s.recognized.get? a = none

/-- Namings that are tame agree, and what is being matched stays without a name. -/
def Orderly (s : MatcherState) (log : List (NameEvent A)) (t : MatcherState) : Prop :=
  EachNaming Naming.Tame log →
    EachNaming Naming.Agrees log ∧ ∀ a, BeingMatched s a → BeingMatched t a

/-- The same of the end of a match: the matched function has no name before, and may have one
    after. -/
def OrderlyAt (address : UInt64) (s : MatcherState) (log : List (NameEvent A)) (t : MatcherState) :
    Prop :=
  BeingMatched s address → EachNaming Naming.Tame log →
    EachNaming Naming.Agrees log ∧ ∀ a, a ≠ address → BeingMatched s a → BeingMatched t a

theorem composes_orderly : Composes (Orderly (A := A)) where
  refl _ _ := ⟨nofun, fun _ => id⟩
  trans h h' htame := by
    obtain ⟨htame, htame'⟩ := eachNaming_append.mp htame
    obtain ⟨hagree, hmatched⟩ := h htame
    obtain ⟨hagree', hmatched'⟩ := h' htame'
    exact ⟨eachNaming_append.mpr ⟨hagree, hagree'⟩, fun a ha => hmatched' a (hmatched a ha)⟩

section

variable {address : UInt64} {s t u : MatcherState} {log log' : List (NameEvent A)}

theorem Orderly.at (h : Orderly s log t) : OrderlyAt address s log t := fun _ htame =>
  (h htame).imp id fun hmatched a _ => hmatched a

theorem Orderly.trans_at (h : Orderly s log t) (h' : OrderlyAt address t log' u) :
    OrderlyAt address s (log ++ log') u := by
  intro hs htame
  obtain ⟨htame, htame'⟩ := eachNaming_append.mp htame
  obtain ⟨hagree, hmatched⟩ := h htame
  obtain ⟨hagree', hmatched'⟩ := h' (hmatched address hs) htame'
  exact ⟨eachNaming_append.mpr ⟨hagree, hagree'⟩,
    fun a hne ha => hmatched' a hne (hmatched a ha)⟩

/-- What a match remembers of its own function leaves the others as they are. -/
def RemembersAt (address : UInt64) (s : MatcherState) (log : List (NameEvent A))
    (t : MatcherState) : Prop :=
  log = [] ∧ ∀ a, a ≠ address → BeingMatched s a → BeingMatched t a

theorem beingMatched_remember {entry : CacheEntry} {a : UInt64} (hne : a ≠ address)
    (h : BeingMatched s a) :
    BeingMatched { s with cache := s.cache.upsert address fun _ => entry } a :=
  ⟨by rw [OrdMap.get?_upsert, if_neg hne]; exact h.1, h.2⟩

theorem RemembersAt.orderlyAt (h : RemembersAt address s log t) : OrderlyAt address s log t := by
  obtain ⟨rfl, hmatched⟩ := h
  exact fun _ _ => ⟨nofun, hmatched⟩

theorem OrderlyAt.trans_remembers (h : OrderlyAt address s log t)
    (h' : RemembersAt address t log' u) : OrderlyAt address s (log ++ log') u := by
  obtain ⟨rfl, hmatched'⟩ := h'
  intro hs htame
  rw [List.append_nil] at htame ⊢
  obtain ⟨hagree, hmatched⟩ := h hs htame
  exact ⟨hagree, fun a hne ha => hmatched' a hne (hmatched a hne ha)⟩

end

namespace MatcherContext

variable (ctx : MatcherContext A)

/-- The names of a signature are applied to a function that has none: the first check let its
    matching begin, and tame names before have spared it. -/
theorem orderlyAt_applyNames (address : UInt64) (signature : FlirtSignature) :
    Traces (OrderlyAt address) (ctx.applyNames address signature) := by
  intro s
  obtain ⟨naming, t, hnaming, hrun, ht, hcache⟩ := ctx.applyNames_spec address signature s
  have hbase : naming.base = address := hnaming ▸ rfl
  have hrecognized : naming.recognized = s.recognized := hnaming ▸ rfl
  have hremembered : naming.cache = s.cache := hnaming ▸ rfl
  have hstep : OrderlyAt address s naming.events t := by
    intro hs htame
    have htame := eachNaming_events.mp htame
    refine ⟨eachNaming_events.mpr (htame.agrees ?_), fun a hne ha => ?_⟩
    · rw [hbase, hrecognized]
      exact hs.2
    · have hspared : ∀ w ∈ naming.writes, w.1 ≠ a := by
        rintro w hw rfl
        refine htame.2.1 w hw (hbase ▸ hne) ?_
        rw [hremembered]
        exact ha.1
      refine ⟨(hcache a hspared).trans ha.1, ?_⟩
      rw [ht, get?_foldl_write hspared]
      exact ha.2
  rw [hrun]
  exact ⟨⟨t, hstep⟩, fun _ u hu => (Prod.mk.inj (Except.ok.inj hu)).2 ▸ hstep⟩

theorem orderlyAt_concludeMatch (address : UInt64) (valid : List FlirtSignature) :
    Traces (OrderlyAt address) (ctx.concludeMatch address valid) := by
  have hrecall (name : Option String) : Traces (RemembersAt address) (do
      let s ← get
      remember address (.complete ((s.recognized.get? address).or name))
      pure ((s.recognized.get? address).or name) : MatchRun A (Option String)) :=
    traces_of_ok _ fun _ => ⟨_, _, rfl, rfl, fun _ => beingMatched_remember⟩
  unfold concludeMatch
  split
  · exact fun s => (traces_fail composes_orderly _ s).weaken fun _ _ => Orderly.at
  · dsimp only
    split
    · exact fun s => (ctx.orderlyAt_applyNames address _ s).bind (fun _ => hrecall _)
        (fun _ _ => id) fun _ _ _ _ => OrderlyAt.trans_remembers
    · exact fun s => (hrecall _ s).weaken fun _ _ => RemembersAt.orderlyAt

theorem orderlyAt_matchBytes {matchTarget : UInt64 → MatchRun A (Option String)}
    (htarget : ∀ address, Traces Orderly (matchTarget address)) (address : UInt64) :
    Traces (OrderlyAt address) (ctx.matchBytes matchTarget address) := by
  have hP := traces_compositional (φ := Stop) (composes_orderly (A := A))
  have hforget : Traces (RemembersAt address) (do
      remember address (.complete none)
      pure none : MatchRun A (Option String)) :=
    traces_of_ok _ fun _ => ⟨_, _, rfl, rfl, fun _ => beingMatched_remember⟩
  unfold matchBytes
  split
  · exact fun s => (hforget s).weaken fun _ _ => RemembersAt.orderlyAt
  · split
    · exact fun s => (traces_fail composes_orderly _ s).weaken fun _ _ => Orderly.at
    · -- the targets of the references are matched while this function is being matched
      have hvalid (candidate : FlirtSignature) :
          Traces Orderly (ctx.referencesMatch matchTarget address candidate.names) :=
        referencesMatch_of hP htarget address candidate.names
      exact fun s => (hP.keepIf hvalid _ s).bind
        (fun valid => ctx.orderlyAt_concludeMatch address valid)
        (fun _ _ => Orderly.at) fun _ _ _ _ => Orderly.trans_at

theorem orderly_matchFunction (fuel : Nat) (address : UInt64) :
    Traces Orderly (ctx.matchFunction fuel address) := by
  induction fuel generalizing address with
  | zero => exact traces_fail composes_orderly _
  | succ fuel ih =>
    intro s
    have hP := traces_compositional (φ := Stop) (composes_orderly (A := A))
    rcases ctx.matchFunction_succ fuel address s with ⟨name, he⟩ | ⟨hnone, -, hfresh, he⟩
    · rw [he]
      exact hP.pure name s
    · rw [he]
      -- what is being matched before is remembered, and this function is not
      have hne {a : UInt64} (ha : BeingMatched s a) : a ≠ address := by
        rintro rfl
        rw [ha.1] at hfresh
        cases hfresh
      have hmatched : BeingMatched { s with cache := s.cache.upsert address fun _ => .visiting }
          address := ⟨by rw [OrdMap.get?_upsert, if_pos rfl], hnone⟩
      refine (ctx.orderlyAt_matchBytes ih address
        { s with cache := s.cache.upsert address fun _ => .visiting }).weaken
        fun log t h htame => ?_
      obtain ⟨hagree, hkept⟩ := h hmatched htame
      exact ⟨hagree, fun a ha => hkept a (hne ha) (beingMatched_remember (hne ha) ha)⟩

end MatcherContext

section

variable (analysis : LibraryView A)
  (reorder : List FlirtSignature → List UInt8 → Option (List FlirtSignature))

/-- Namings that are tame agree. -/
def TameAgree (_ : MatcherState) (log : List (NameEvent A)) (_ : MatcherState) : Prop :=
  EachNaming Naming.Tame log → EachNaming Naming.Agrees log

theorem composes_tameAgree : Composes (TameAgree (A := A)) where
  refl _ _ := nofun
  trans h h' htame :=
    eachNaming_append.mpr ((eachNaming_append.mp htame).imp h h')

theorem tameAgree_identify (databases : List SignatureDatabase) :
    Traces TameAgree (identifyWithLocalStarts analysis reorder databases) := by
  have hP := traces_compositional (φ := Stop) (composes_tameAgree (A := A))
  have htry (address : UInt64) : Traces TameAgree (tryDatabases analysis reorder
      (analysis.functions.keys.length + 1) address databases) := by
    induction databases with
    | nil => exact hP.pure ()
    | cons database databases ih =>
      refine hP.bind hP.get fun s => ?_
      split
      · exact hP.pure ()
      · refine hP.bind (traces_of_ok _ fun _ => ⟨(), _, rfl, nofun⟩) fun _ =>
          hP.bind (fun s => ?_) fun _ => ih
        exact (MatcherContext.orderly_matchFunction _ _ address s).weaken
          fun _ _ h htame => (h htame).1
  unfold identifyWithLocalStarts
  split
  · exact hP.pure _
  · exact hP.bind (hP.forEach htry _) fun _ => hP.bind hP.get fun s => hP.pure _

/-- In a run whose namings are all tame, the first name of every address stands: that no function is
    matched which is recognized or being matched keeps the matched function itself without a name
    until its own is applied. That the names spare what is recognized, and give no address two
    names, is needed. -/
theorem identify_firstWins_of_tame (databases : List SignatureDatabase) :
    (EachNaming Naming.Tame (identify analysis reorder databases).log →
      FirstWins (identify analysis reorder databases).log) ∧
    (FirstWins (identify analysis reorder databases).log →
      EachNaming (fun naming => naming.SparesRecognized ∧ naming.NamesOnce)
        (identify analysis reorder databases).log) := by
  rw [firstWins_iff_agrees]
  obtain ⟨t, ht⟩ := (tameAgree_identify analysis reorder databases ⟨∅, ∅, ∅⟩).begun
  exact ⟨ht, fun h naming hmem => (h naming hmem).spares⟩

end

/-- What the recorded maps say of one address, when the first names stand. -/
theorem FirstWins.pairwise_get? {log : List (NameEvent A)} (h : FirstWins log) (a : UInt64) :
    ((recordedMaps log).map fun m => m.get? a).Pairwise fun o o' => o.isSome = true → o' = o := by
  refine List.pairwise_map.mpr ((List.pairwise_cons.mp h).2.imp fun {m m'} hkept hsome => ?_)
  obtain ⟨name, hname⟩ := Option.isSome_iff_exists.mp hsome
  rw [hname, hkept a name hname]

/-! ## Termination -/

/-- The functions that an invocation has not begun to match. -/
def unmatched (analysis : LibraryView A) (s : MatcherState) : Nat :=
  (analysis.functions.keys.filter fun a => (s.cache.get? a).isNone).length

/-- A bound on the functions left holds on, and the fuel is not used up. -/
abbrev Terminates (analysis : LibraryView A) (n : Nat) {α : Type} (m : MatchRun A α) : Prop :=
  Keeps (fun s => unmatched analysis s < n) (· ≠ .outOfFuel) m

theorem unmatched_remember_le (analysis : LibraryView A) (s : MatcherState) (address : UInt64)
    (entry : CacheEntry) :
    unmatched analysis { s with cache := s.cache.upsert address fun _ => entry } ≤
      unmatched analysis s := by
  refine (List.monotone_filter_right _ fun a ha => ?_).length_le
  rw [OrdMap.get?_upsert] at ha
  split at ha
  · cases ha
  · exact ha

theorem unmatched_remember_lt {analysis : LibraryView A} {s : MatcherState} {address : UInt64}
    (hmem : address ∈ analysis.functions.keys) (hfresh : s.cache.get? address = none)
    (entry : CacheEntry) :
    unmatched analysis { s with cache := s.cache.upsert address fun _ => entry } <
      unmatched analysis s := by
  refine lt_of_le_of_ne (unmatched_remember_le analysis s address entry) fun he => ?_
  have hsub := List.monotone_filter_right analysis.functions.keys
    (p := fun a => ((s.cache.upsert address fun _ => entry).get? a).isNone)
    (q := fun a => (s.cache.get? a).isNone) fun a ha => by
      rw [OrdMap.get?_upsert] at ha
      split at ha
      · cases ha
      · exact ha
  have hin : address ∈ analysis.functions.keys.filter fun a => (s.cache.get? a).isNone :=
    List.mem_filter.mpr ⟨hmem, by rw [hfresh]; rfl⟩
  rw [← hsub.eq_of_length he] at hin
  have hnone := (List.mem_filter.mp hin).2
  rw [OrdMap.get?_upsert, if_pos rfl] at hnone
  cases hnone

namespace MatcherContext

variable {ctx : MatcherContext A} {analysis : LibraryView A} {n : Nat}
  {matchTarget : UInt64 → MatchRun A (Option String)}

theorem terminates_remember (address : UInt64) (entry : CacheEntry) :
    Terminates analysis n (remember address entry) :=
  fun s hs => endsIn_ok ((unmatched_remember_le analysis s address entry).trans_lt hs)

theorem terminates_applyName (base : UInt64) (entry : Name × Bool) :
    Terminates analysis n (ctx.applyName base entry) := by
  have hP := keeps_compositional (ε := NameEvent A) (fun s => unmatched analysis s < n)
    (· ≠ Stop.outOfFuel)
  have hstarts (address : UInt64) : Terminates (A := A) analysis n
      (modify fun s => { s with localStarts := s.localStarts.insert address }) :=
    fun _ hs => endsIn_ok hs
  have hrecognize (address : UInt64) (name : String) :
      Terminates (A := A) analysis n (recognize address name) := fun _ hs => endsIn_ok hs
  unfold applyName
  split
  · exact hP.pure ()
  · next address _ =>
    have hwrite : Terminates analysis n (do
        recognize (A := A) address entry.1.name
        remember address (.complete (some entry.1.name))) :=
      hP.bind (hrecognize address _) fun _ => terminates_remember _ _
    dsimp only
    split
    · refine hP.bind (hstarts address) fun _ => ?_
      split
      · exact hwrite
      · exact hP.pure ()
    · split
      · exact hwrite
      · exact hP.pure ()

theorem terminates_applyNames (base : UInt64) (signature : FlirtSignature) :
    Terminates analysis n (ctx.applyNames base signature) := by
  have hP := keeps_compositional (ε := NameEvent A) (fun s => unmatched analysis s < n)
    (· ≠ Stop.outOfFuel)
  refine hP.bind hP.get fun s => hP.bind (fun _ hs => endsIn_ok hs) fun _ => ?_
  exact hP.forEach (terminates_applyName base) _

/-- Every match that is not answered at once begins to match one more function. -/
theorem terminates_matchFunction (ctx : MatcherContext A) (fuel : Nat) (address : UInt64) :
    Terminates ctx.analysis fuel (ctx.matchFunction fuel address) := by
  induction fuel generalizing address with
  | zero => exact fun _ hs => absurd hs (Nat.not_lt_zero _)
  | succ fuel ih =>
    intro s hs
    rcases ctx.matchFunction_succ fuel address s with ⟨name, he⟩ | ⟨-, hexists, hfresh, he⟩
    · rw [he]
      exact endsIn_ok hs
    · rw [he]
      have hmem : address ∈ ctx.analysis.functions.keys :=
        OrdMap.mem_keys_iff.mpr (Bool.and_eq_true_iff.mp hexists).1
      have hless := unmatched_remember_lt hmem hfresh .visiting
      have hnames : ∀ base signature, Terminates ctx.analysis fuel
          (ctx.applyNames base signature) := terminates_applyNames
      have hfail : ∀ {α : Type} (e : FlirtError), Terminates ctx.analysis fuel
          (Run.fail (Stop.error e) : MatchRun A α) := fun e => keeps_fail nofun
      have hbody := matchBytes_of (keeps_compositional _ _) terminates_remember hnames hfail ih
        address
      have hfirst : EndsIn (fun t => unmatched ctx.analysis t < fuel) (· ≠ Stop.outOfFuel)
          ((remember address .visiting : MatchRun A Unit) s) :=
        endsIn_ok (lt_of_lt_of_le hless (Nat.le_of_lt_succ hs))
      exact hfirst.bind fun _ t ht => (hbody t ht).weaken fun _ h => Nat.lt_succ_of_lt h

end MatcherContext

/-- A run never stops for lack of fuel. -/
theorem identify_outcome_ne (analysis : LibraryView A)
    (reorder : List FlirtSignature → List UInt8 → Option (List FlirtSignature))
    (databases : List SignatureDatabase) :
    (identify analysis reorder databases).outcome ≠ .error .outOfFuel := by
  have hP := keeps_compositional (σ := MatcherState) (ε := NameEvent A) (fun _ => True)
    (· ≠ Stop.outOfFuel)
  have hcap : ∀ s, unmatched analysis s < analysis.functions.keys.length + 1 := fun s =>
    Nat.lt_succ_of_le (List.length_filter_le _ _)
  have hmatch (address : UInt64) (database : SignatureDatabase) : Keeps (fun _ => True)
      (· ≠ Stop.outOfFuel) ((contextFor analysis reorder address database).matchFunction
        (analysis.functions.keys.length + 1) address) := by
    intro s _
    have h := MatcherContext.terminates_matchFunction (contextFor analysis reorder address database)
      (analysis.functions.keys.length + 1) address s (hcap s)
    exact h.weaken fun _ _ => trivial
  have htry (address : UInt64) : Keeps (fun _ => True) (· ≠ Stop.outOfFuel)
      (tryDatabases analysis reorder (analysis.functions.keys.length + 1) address databases) := by
    induction databases with
    | nil => exact hP.pure ()
    | cons database databases ih =>
      refine hP.bind hP.get fun s => ?_
      split
      · exact hP.pure ()
      · exact hP.bind (fun _ _ => endsIn_ok trivial) fun _ =>
          hP.bind (hmatch address database) fun _ => ih
  have hall : Keeps (fun _ => True) (· ≠ Stop.outOfFuel)
      (identifyWithLocalStarts analysis reorder databases) := by
    unfold identifyWithLocalStarts
    split
    · exact hP.pure _
    · exact hP.bind (hP.forEach htry _) fun _ => hP.bind hP.get fun s => hP.pure _
  exact fun h => (hall ⟨∅, ∅, ∅⟩ trivial).fault .outOfFuel h rfl

/-! ## A second name -/

/-- A PE image with two functions, the second of them found first. -/
def twoFunctions : LibraryView .x86 where
  image :=
    { sections := [⟨0x1000, 0x20, ⟨true, false, true⟩⟩]
      externalBindings := ∅
      uninitialized := []
      mappedBytes := [[0x31, 0xc9, 0xc3, 0x90, 0x90, 0x90, 0x90, 0x90, 0x90, 0x90, 0x90, 0x90, 0x90,
        0x90, 0x90, 0x90, 0x31, 0xc0, 0xc3]]
      decodeAt := fun _ => .error "not decoded"
      format := .pe
      entryPoint := none
      sectionFiles := [(".text", 0x20)]
      importLocations := ∅
      primaryCode := []
      deadData := []
      elfPltRanges := []
      opKinds := fun _ => [] }
  functions := OrdMap.ofList [(0x1000, []), (0x1010, [])]
  functionOrder := OrdMap.ofList [(0x1000, 1), (0x1010, 0)]
  functionAnalysisCounts := ∅
  functionFlirtCounts := ∅
  functionLocationCounts := ∅
  instructions := ∅
  instructionOrder := ∅
  codeXrefs := ∅
  dataXrefs := ∅

def exactSignature (bytes : List UInt8) (names : List Symbol) : FlirtSignature where
  byteSig := bytes.map .byte
  names := names
  matchCrc16 _ := true
  matchTailBytes _ := true
  matchFooter _ := true

/-- The first database knows the second function; the second one knows the first, and a public name
    sixteen bytes after it. -/
def twoDatabases : List SignatureDatabase :=
  [⟨"1.sig", SignatureMatcher.withSignatures
    [exactSignature [0x31, 0xc0, 0xc3] [.public ⟨0, "second"⟩]]⟩,
   ⟨"2.sig", SignatureMatcher.withSignatures
    [exactSignature [0x31, 0xc9, 0xc3] [.public ⟨0, "first"⟩, .public ⟨0x10, "other"⟩]]⟩]

theorem identify_renames :
    ¬FirstWins (identify twoFunctions (fun matched _ => some matched) twoDatabases).log := by
  intro h
  have hnames : (recordedMaps (identify twoFunctions (fun matched _ => some matched)
      twoDatabases).log).map (fun m => m.get? 0x1010) =
      [some "second", some "second", some "other"] := by decide +kernel
  have hpairs := h.pairwise_get? 0x1010
  rw [hnames] at hpairs
  exact absurd hpairs (by decide)

/-- Both databases know the second function, each under its own name. -/
def rivalDatabases : List SignatureDatabase :=
  twoDatabases.take 1 ++ [⟨"2.sig", SignatureMatcher.withSignatures
    [exactSignature [0x31, 0xc0, 0xc3] [.public ⟨0, "again"⟩],
      exactSignature [0x31, 0xc9, 0xc3] [.public ⟨0, "first"⟩, .local ⟨1, "inside"⟩]]⟩]

/-- The second database names the first function only. -/
theorem identify_firstWins_rivalDatabases :
    FirstWins (identify twoFunctions (fun matched _ => some matched) rivalDatabases).log ∧
    (recordedMaps (identify twoFunctions (fun matched _ => some matched) rivalDatabases).log).map
      (fun m => (m.get? 0x1000, m.get? 0x1010)) =
        [(none, some "second"), (some "first", some "second")] := by
  refine ⟨(identify_firstWins_of_tame twoFunctions (fun matched _ => some matched) _).1
    fun naming hnaming => ?_, by decide +kernel⟩
  have hall : ((identify twoFunctions (fun matched _ => some matched) rivalDatabases).log.all
      fun event =>
        match event with
        | .applying naming => decide naming.Tame
        | .recorded _ => true) = true := by decide +kernel
  exact of_decide_eq_true (List.all_eq_true.mp hall _ hnaming)

end CapaX.Recovery
