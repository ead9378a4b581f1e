import CapaX.Capabilities.DynamicAnalysis
import CapaX.Capabilities.Gathering

/-
  The span matcher against its recomputation from scratch. `spanWindow` joins the feature sets of
  the last `spanSize` calls anew, and `MatchesSpan` matches on it. `Tracks` is what the matcher
  keeps true after every call: its live union has the lookups of the window, and what it recorded
  is decided by the matches of this window and the one before (`Recordable`).

  A call is `Placed` when its features are at its own address or at no address, where exactly the
  globals are. Only this makes it right to take the locations of the oldest call out of the union
  one by one.
-/

namespace CapaX

open Collections Control

namespace FeatureSet

/-! ## The window -/

/-- The union of feature sets, computed afresh. -/
def join (sets : List FeatureSet) : FeatureSet := sets.foldl merge ∅

theorem mem_locations_foldl_merge {sets : List FeatureSet} {fs : FeatureSet} {f : Feature}
    {a : Address} :
    a ∈ (sets.foldl merge fs).locations f ↔
      a ∈ fs.locations f ∨ ∃ S ∈ sets, a ∈ S.locations f := by
  induction sets generalizing fs with
  | nil => exact (or_iff_left fun ⟨_, hS, _⟩ => List.not_mem_nil hS).symm
  | cons S sets ih =>
    rw [List.foldl_cons, ih, mem_locations_merge, or_assoc, List.exists_mem_cons_iff]

theorem mem_locations_join {sets : List FeatureSet} {f : Feature} {a : Address} :
    a ∈ (join sets).locations f ↔ ∃ S ∈ sets, a ∈ S.locations f := by
  rw [join, mem_locations_foldl_merge]
  exact or_iff_right not_mem_locations_empty

theorem Located.join {sets : List FeatureSet} (h : ∀ S ∈ sets, S.Located) :
    (FeatureSet.join sets).Located := by
  have hfold : ∀ fs : FeatureSet, fs.Located → (sets.foldl FeatureSet.merge fs).Located := by
    induction sets with
    | nil => exact fun _ hfs => hfs
    | cons S sets ih =>
      exact fun fs hfs => ih (fun T hT => h T (List.mem_cons_of_mem _ hT)) _
        (hfs.merge (h S List.mem_cons_self))
  exact hfold ∅ Located.empty

end FeatureSet

/-! ## Taking a call out of the window -/

/-- A lone `noAddress`, the locations of a global feature. -/
def LoneGlobal (locs : OrdSet Address) : Prop := locs.card = 1 ∧ Address.noAddress ∈ locs

instance (locs : OrdSet Address) : Decidable (LoneGlobal locs) :=
  inferInstanceAs (Decidable (_ ∧ _))

theorem LoneGlobal.eq_noAddress {locs : OrdSet Address} (h : LoneGlobal locs) {a : Address}
    (ha : a ∈ locs) : a = .noAddress := by
  obtain ⟨b, hb⟩ := List.length_eq_one_iff.mp h.1
  have hmem : ∀ c, c ∈ locs ↔ c = b := fun c => by rw [OrdSet.mem_def, hb, List.mem_singleton]
  rw [(hmem a).mp ha, (hmem .noAddress).mp h.2]

theorem mem_locations_removeLocations {fs : FeatureSet} {e : Feature × OrdSet Address}
    {f : Feature} {a : Address} :
    a ∈ (removeLocations fs e).locations f ↔
      a ∈ fs.locations f ∧ ¬ (¬ LoneGlobal e.2 ∧ (e.1 == f) = true ∧ a ∈ e.2) := by
  unfold removeLocations
  by_cases hlone : e.2.card = 1 ∧ Address.noAddress ∈ e.2
  · rw [if_pos hlone]
    exact (and_iff_left fun h => h.1 hlone).symm
  · rw [if_neg hlone]
    have hl : ¬ LoneGlobal e.2 := hlone
    simp only [hl, not_false_eq_true, true_and]
    cases hcur : fs.get? e.1 with
    | none =>
      refine ⟨fun ha => ⟨ha, fun ⟨he, _⟩ => ?_⟩, fun h => h.1⟩
      rw [← FeatureSet.locations_congr he, FeatureSet.locations, hcur] at ha
      exact OrdSet.not_mem_empty a ha
    | some locs =>
      have hrest : ∀ a, a ∈ locs.eraseAll e.2.toList ↔ a ∈ locs ∧ a ∉ e.2 := fun a =>
        OrdSet.mem_eraseAll
      by_cases he : (e.1 == f) = true
      · have hf : fs.locations f = locs := by
          rw [← FeatureSet.locations_congr he, FeatureSet.locations, hcur]
          rfl
        simp only [he, true_and, hf]
        rw [← hrest]
        split
        · next hempty =>
          rw [OrdSet.isEmpty_iff.mp hempty, FeatureSet.locations, IndexMap.get?_erase, if_pos he]
          rfl
        · rw [FeatureSet.locations, IndexMap.get?_modify, if_pos he, ← IndexMap.get?_congr he, hcur]
          rfl
      · rw [and_iff_left fun h => he h.1]
        dsimp only
        split
        · rw [FeatureSet.locations, IndexMap.get?_erase, if_neg he]
          rfl
        · rw [FeatureSet.locations, IndexMap.get?_modify, if_neg he]
          rfl

theorem FeatureSet.Located.removeLocations {fs : FeatureSet} (h : fs.Located)
    (e : Feature × OrdSet Address) : (CapaX.removeLocations fs e).Located := by
  unfold CapaX.removeLocations
  split
  · exact h
  · split
    · exact h
    · next locs hcur =>
      dsimp only
      split
      · intro f locs' hf
        rw [IndexMap.get?_erase] at hf
        split at hf
        · cases hf
        · exact h f locs' hf
      · next hrest =>
        intro f locs' hf
        rw [IndexMap.get?_modify] at hf
        split at hf
        · obtain ⟨_, _, rfl⟩ := Option.map_eq_some_iff.mp hf
          by_contra hno
          refine hrest (OrdSet.isEmpty_iff.mpr (OrdSet.ext_mem fun a => ?_))
          exact iff_of_false (fun ha => hno ⟨a, ha⟩) (OrdSet.not_mem_empty a)
        · exact h f locs' hf

theorem FeatureSet.Located.removeOverflowing {fs : FeatureSet} (h : fs.Located) (S : FeatureSet) :
    (CapaX.removeOverflowing fs S).Located := by
  unfold CapaX.removeOverflowing
  induction S.entries generalizing fs with
  | nil => exact h
  | cons e es ih => exact ih (h.removeLocations e)

/-- What stays of a feature when a call leaves: all but the locations it has there, unless they
    are a lone `noAddress`. -/
theorem mem_locations_removeOverflowing {fs S : FeatureSet} {f : Feature} {a : Address} :
    a ∈ (removeOverflowing fs S).locations f ↔
      a ∈ fs.locations f ∧ ¬ (¬ LoneGlobal (S.locations f) ∧ a ∈ S.locations f) := by
  have hfold : ∀ (es : List (Feature × OrdSet Address)) (fs : FeatureSet),
      a ∈ (es.foldl removeLocations fs).locations f ↔ a ∈ fs.locations f ∧
        ∀ e ∈ es, ¬ (¬ LoneGlobal e.2 ∧ (e.1 == f) = true ∧ a ∈ e.2) := by
    intro es
    induction es with
    | nil => exact fun fs => (and_iff_left fun e he => absurd he List.not_mem_nil).symm
    | cons e es ih =>
      intro fs
      rw [List.foldl_cons, ih, mem_locations_removeLocations, and_assoc, List.forall_mem_cons]
  refine (hfold S.entries fs).trans (and_congr_right fun _ => ?_)
  constructor
  · intro hall hgone
    obtain ⟨hlone, ha⟩ := hgone
    obtain ⟨locs, hget, hmem⟩ := FeatureSet.mem_locations_iff.mp ha
    obtain ⟨k, hk, hkf⟩ := IndexMap.mem_of_get? hget
    have hlocs : S.locations f = locs := by rw [FeatureSet.locations, hget]; rfl
    exact hall (k, locs) hk ⟨hlocs ▸ hlone, hkf, hmem⟩
  · intro hnot e he hgone
    obtain ⟨hlone, hef, ha⟩ := hgone
    have hget : S.get? f = some e.2 := IndexMap.get?_of_mem he hef
    have hlocs : S.locations f = e.2 := by rw [FeatureSet.locations, hget]; rfl
    exact hnot ⟨hlocs ▸ hlone, hlocs ▸ ha⟩

/-! ## The feature set of a call -/

/-- The features of a call are at its address, but for the globals. -/
structure Placed (globals : List Feature) (addr : Address) (S : FeatureSet) : Prop where
  located : S.Located
  at_addr : ∀ {f a}, a ∈ S.locations f → a = addr ∨ a = .noAddress
  global : ∀ {f}, addr ≠ .noAddress → .noAddress ∈ S.locations f →
    ∃ g ∈ globals, (g == f) = true
  globals : ∀ {f}, (∃ g ∈ globals, (g == f) = true) → Address.noAddress ∈ S.locations f

section

variable [ComDatabase] [RegexBackend] {rules : List Rule} {set : MatchingRuleSet}
  {globals : List Feature}

theorem findCallCapabilities_placed (hset : MatchingRuleSet.new rules = .ok set)
    {order : IterOrder} {addr : Address} {call : CallFeatures} {S : FeatureSet}
    {results : MatchResults} (hown : ∀ e ∈ call.features, e.1 = addr)
    (h : findCallCapabilities set order addr call globals = .ok (S, results)) :
    Placed globals addr S := by
  obtain ⟨results', hmatch, h⟩ := bind_eq_ok.mp h
  obtain ⟨rfl, rfl⟩ := Prod.mk.inj (Except.ok.inj h)
  have hmem : ∀ f a, a ∈ (promoteMatches set order (seed ∅ call.features globals)
      results').locations f → (∃ e ∈ call.features, (e.2 == f) = true ∧ a = e.1) ∨
        (∃ g ∈ globals, (g == f) = true ∧ a = .noAddress) ∨ a = addr := by
    intro f a ha
    rcases mem_locations_promoteMatches.mp ha with ha | ⟨_, _, _, hres, _, _, r, hr, rfl⟩
    · rcases mem_locations_seed.mp ha with ha | ha | ha
      · exact absurd ha FeatureSet.not_mem_locations_empty
      · exact Or.inl ha
      · exact Or.inr (Or.inl ha)
    · exact Or.inr (Or.inr ((matchScopeResults_addr hset hmatch hres).2 r hr))
  refine ⟨(FeatureSet.Located.empty.seed _ _).promoteMatches _ _ _, fun {f a} ha => ?_,
    fun {f} haddr ha => ?_, fun {f} ⟨g, hg, hgf⟩ => ?_⟩
  · rcases hmem f a ha with ⟨e, he, _, rfl⟩ | ⟨_, _, _, rfl⟩ | rfl
    · exact Or.inl (hown e he)
    · exact Or.inr rfl
    · exact Or.inl rfl
  · rcases hmem f .noAddress ha with ⟨e, he, _, hat⟩ | ⟨g, hg, hgf, _⟩ | hat
    · exact absurd (hat.trans (hown e he)).symm haddr
    · exact ⟨g, hg, hgf⟩
    · exact absurd hat.symm haddr
  · exact mem_locations_promoteMatches.mpr (Or.inl (mem_locations_seed.mpr
      (Or.inr (Or.inr ⟨g, hg, hgf, rfl⟩))))

omit [ComDatabase] [RegexBackend] in
/-- When a call leaves the window and a later one enters, the union stays the union. -/
theorem mem_locations_slide {cur S : FeatureSet} {x : Address × FeatureSet}
    {kept : List (Address × FeatureSet)} {addr : Address}
    (hcur : ∀ f a, a ∈ cur.locations f ↔ ∃ e ∈ x :: kept, a ∈ e.2.locations f)
    (hx : Placed globals x.1 x.2) (hkept : ∀ e ∈ kept, Placed globals e.1 e.2 ∧ x.1 < e.1)
    (hS : Placed globals addr S) (hlt : x.1 < addr) (f : Feature) (a : Address) :
    a ∈ ((removeOverflowing cur x.2).merge S).locations f ↔
      ∃ e ∈ kept ++ [(addr, S)], a ∈ e.2.locations f := by
  have hxno : x.1 ≠ .noAddress := ne_of_lt (lt_of_lt_of_le hlt (Address.le_noAddress addr))
  have hnew : a = .noAddress → a ∈ x.2.locations f → a ∈ S.locations f := by
    rintro rfl ha
    exact hS.globals (hx.global hxno ha)
  rw [FeatureSet.mem_locations_merge, mem_locations_removeOverflowing, hcur]
  simp only [List.mem_append, List.mem_cons, List.not_mem_nil, or_false]
  constructor
  · rintro (⟨⟨e, rfl | he, ha⟩, hnot⟩ | ha)
    · have hlone : LoneGlobal (e.2.locations f) := by
        by_contra hlone
        exact hnot ⟨hlone, ha⟩
      exact ⟨_, Or.inr rfl, hnew (hlone.eq_noAddress ha) ha⟩
    · exact ⟨e, Or.inl he, ha⟩
    · exact ⟨_, Or.inr rfl, ha⟩
  · rintro ⟨e, he | rfl, ha⟩
    · by_cases hmem : a ∈ x.2.locations f
      · obtain ⟨hplaced, hlt'⟩ := hkept e he
        have hno : a = .noAddress := by
          refine (hx.at_addr hmem).resolve_left fun hax => ?_
          rcases hplaced.at_addr ha with hae | hno
          · exact absurd (hax.symm.trans hae) (ne_of_lt hlt')
          · exact hxno (hax.symm.trans hno)
        exact Or.inr (hnew hno hmem)
      · exact Or.inl ⟨⟨e, Or.inr he, ha⟩, fun h => hmem h.2⟩
    · exact Or.inr ha

end

/-! ## The matches of a window -/

/-- The feature sets of the calls up to the `i`-th, the last `spanSize` of them, joined anew. -/
def spanWindow (history : List (Address × FeatureSet)) (i : Nat) : FeatureSet :=
  .join (((history.take (i + 1)).drop (i + 1 - spanSize)).map (·.2))

section

variable [RegexBackend] (set : MatchingRuleSet)

/-- The rule matches the window of the `i`-th call. -/
def MatchesSpan (history : List (Address × FeatureSet)) (i : Nat) (name : String) : Prop :=
  ∃ e results, history[i]? = some e ∧
    set.matchScopeResults .spanOfCalls (spanWindow history i) e.1 = .ok results ∧
      (results.get? name).isSome = true

/-- The rule matches the window of the call before the `i`-th; the first call has none. -/
def MatchedBefore (history : List (Address × FeatureSet)) (i : Nat) (name : String) : Prop :=
  ∃ j, j + 1 = i ∧ MatchesSpan set history j name

/-- The rule matches now, and either it did not match then, or a rule that lists it among its
    dependencies does so for the first time. -/
def Recordable (history : List (Address × FeatureSet)) (i : Nat) (name : String) : Prop :=
  MatchesSpan set history i name ∧
    (¬ MatchedBefore set history i name ∨
      ∃ fresh rule, MatchesSpan set history i fresh ∧ ¬ MatchedBefore set history i fresh ∧
        set.get fresh = some rule ∧ name ∈ getDependencies rule.body set.byNamespacePrefix)

end

/-- A match of the rule is recorded at the address. -/
def RecordedAt (results : MatchResults) (name : String) (a : Address) : Prop :=
  ∃ res, results.get? name = some res ∧ ∃ r ∈ res, r.1 = a

theorem spanWindow_append {history : List (Address × FeatureSet)} (e : Address × FeatureSet)
    {i : Nat} (hi : i < history.length) :
    spanWindow (history ++ [e]) i = spanWindow history i := by
  unfold spanWindow
  rw [List.take_append_of_le_length (by omega)]

theorem spanWindow_last (history : List (Address × FeatureSet)) (e : Address × FeatureSet) :
    spanWindow (history ++ [e]) history.length =
      .join (((history ++ [e]).drop (history.length + 1 - spanSize)).map (·.2)) := by
  unfold spanWindow
  rw [List.take_of_length_le (by simp)]

section

variable [RegexBackend] {set : MatchingRuleSet} {history : List (Address × FeatureSet)}
  {e : Address × FeatureSet}

theorem matchesSpan_append {i : Nat} (hi : i < history.length) {name : String} :
    MatchesSpan set (history ++ [e]) i name ↔ MatchesSpan set history i name := by
  unfold MatchesSpan
  rw [spanWindow_append e hi, List.getElem?_append_left hi]

theorem matchedBefore_append {i : Nat} (hi : i ≤ history.length) {name : String} :
    MatchedBefore set (history ++ [e]) i name ↔ MatchedBefore set history i name := by
  refine exists_congr fun j => and_congr_right fun hj => ?_
  exact matchesSpan_append (by omega)

theorem recordable_append {i : Nat} (hi : i < history.length) {name : String} :
    Recordable set (history ++ [e]) i name ↔ Recordable set history i name := by
  unfold Recordable
  simp only [matchesSpan_append hi, matchedBefore_append (Nat.le_of_lt hi)]

/-- What is recordable at the last call, by what matches there and matched at the call before. -/
theorem recordable_last {results : MatchResults} {last suppressed : OrdSet String}
    (hnow : ∀ name, MatchesSpan set (history ++ [e]) history.length name ↔
      (results.get? name).isSome = true)
    (hbefore : ∀ name, MatchedBefore set (history ++ [e]) history.length name ↔ name ∈ last)
    (hsup : ∀ name, name ∈ suppressed ↔ name ∈ last ∧
      ∀ fresh, (results.get? fresh).isSome = true → fresh ∉ last →
        ∀ rule, set.get fresh = some rule →
          name ∉ getDependencies rule.body set.byNamespacePrefix) (name : String) :
    Recordable set (history ++ [e]) history.length name ↔
      (results.get? name).isSome = true ∧ name ∉ suppressed := by
  unfold Recordable
  simp only [hnow, hbefore, hsup]
  apply and_congr_right
  intro _
  constructor
  · rintro (hlast | ⟨fresh, rule, hfresh, hnot, hget, hdep⟩) ⟨hin, hall⟩
    · exact hlast hin
    · exact hall fresh hfresh hnot rule hget hdep
  · intro hnot
    by_contra hno
    obtain ⟨hin, hall⟩ := not_or.mp hno
    refine hnot ⟨not_not.mp hin, fun fresh hfresh hl rule hget hdep => ?_⟩
    exact hall ⟨fresh, rule, hfresh, hl, hget, hdep⟩

theorem exists_recordable_append {name : String} {a : Address} :
    (∃ i d, (history ++ [e])[i]? = some d ∧ d.1 = a ∧ Recordable set (history ++ [e]) i name) ↔
      (∃ i d, history[i]? = some d ∧ d.1 = a ∧ Recordable set history i name) ∨
        e.1 = a ∧ Recordable set (history ++ [e]) history.length name := by
  constructor
  · intro h
    obtain ⟨i, d, hd, ha, hr⟩ := h
    have hi : i < (history ++ [e]).length := (List.getElem?_eq_some_iff.mp hd).1
    rw [List.length_append, List.length_singleton] at hi
    obtain hlt | hge := Nat.lt_or_ge i history.length
    · rw [List.getElem?_append_left hlt] at hd
      exact Or.inl ⟨i, d, hd, ha, (recordable_append hlt).mp hr⟩
    · obtain rfl : i = history.length := by omega
      rw [List.getElem?_concat_length] at hd
      obtain rfl := Option.some.inj hd
      exact Or.inr ⟨ha, hr⟩
  · intro h
    obtain ⟨i, d, hd, ha, hr⟩ | ⟨ha, hr⟩ := h
    · have hi : i < history.length := (List.getElem?_eq_some_iff.mp hd).1
      exact ⟨i, d, by rwa [List.getElem?_append_left hi], ha, (recordable_append hi).mpr hr⟩
    · exact ⟨history.length, e, List.getElem?_concat_length .., ha, hr⟩

/-! ## One call -/

omit [RegexBackend] in
theorem mem_suppressedRules {last : OrdSet String} {encountered : List String} {name : String} :
    name ∈ suppressedRules set last encountered ↔ name ∈ last ∧
      ∀ fresh ∈ encountered, ∀ rule, set.get fresh = some rule →
        name ∉ getDependencies rule.body set.byNamespacePrefix := by
  unfold suppressedRules
  induction encountered generalizing last with
  | nil => exact (and_iff_left fun _ h => absurd h List.not_mem_nil).symm
  | cons fresh encountered ih =>
    rw [List.foldl_cons, ih, List.forall_mem_cons]
    cases hget : set.get fresh with
    | none =>
      refine and_congr_right fun _ => (and_iff_right fun rule h => ?_).symm
      cases h
    | some rule =>
      rw [OrdSet.mem_eraseAll, and_assoc]
      refine and_congr_right fun _ => and_congr_left fun _ => ?_
      exact ⟨fun h r hr => Option.some.inj hr ▸ h, fun h => h rule rfl⟩

omit [RegexBackend] in
/-- Recording appends the evidence of every rule that is not suppressed. -/
theorem get?_record (order : IterOrder) (into results : MatchResults) (suppressed : OrdSet String)
    (name : String) :
    ((order.reorder results).entries.foldl (fun acc e =>
      if e.1 ∈ suppressed then acc else acc.upsert e.1 fun o => o.getD [] ++ e.2) into).get? name =
      match results.get? name with
      | none => into.get? name
      | some res =>
        if name ∈ suppressed then into.get? name else some ((into.get? name).getD [] ++ res) := by
  rw [← order.get?_reorder results name]
  obtain ⟨l, hl⟩ := order.reorder results
  simp only
  induction l generalizing into with
  | nil => rfl
  | cons e l ih =>
    obtain ⟨he, hl'⟩ := List.pairwise_cons.mp hl
    rw [List.foldl_cons, ih _ hl']
    cases hname : e.1 == name with
    | false =>
      have hget : (⟨e :: l, hl⟩ : MatchResults).get? name = (⟨l, hl'⟩ : MatchResults).get? name := by
        simp [IndexMap.get?, hname]
      rw [hget]
      have hinto : (if e.1 ∈ suppressed then into else
          into.upsert e.1 fun o => o.getD [] ++ e.2).get? name = into.get? name := by
        split
        · rfl
        · rw [IndexMap.get?_upsert, if_neg (by simp [hname])]
      rw [hinto]
    | true =>
      obtain rfl : e.1 = name := eq_of_beq hname
      have hnone : (⟨l, hl'⟩ : MatchResults).get? e.1 = none := by
        rw [IndexMap.get?, Option.map_eq_none_iff, List.find?_eq_none]
        intro x hx hxe
        have hex := he x hx
        rw [eq_of_beq hxe, beq_self_eq_true] at hex
        cases hex
      have hsome : (⟨e :: l, hl⟩ : MatchResults).get? e.1 = some e.2 := by
        simp [IndexMap.get?]
      rw [hnone, hsome]
      dsimp only
      split
      · rfl
      · rw [IndexMap.get?_upsert, if_pos (beq_self_eq_true e.1)]

/-- One call: the window moves on, and the matches of the new window that are not suppressed are
    recorded. -/
theorem SpanOfCallsMatcher.next_ok {encountered record : IterOrder} {m m' : SpanOfCallsMatcher}
    {addr : Address} {S : FeatureSet} (h : m.next set encountered record addr S = .ok m') :
    m'.currentFeatureSets = m.overflowed.1 ++ [S] ∧
      m'.currentFeatures = m.overflowed.2.merge S ∧
      ∃ results, set.matchScopeResults .spanOfCalls m'.currentFeatures addr = .ok results ∧
        (∀ name, name ∈ m'.lastSpanMatches ↔ (results.get? name).isSome = true) ∧
        ∃ suppressed : OrdSet String,
          (∀ name, name ∈ suppressed ↔ name ∈ m.lastSpanMatches ∧
            ∀ fresh, (results.get? fresh).isSome = true → fresh ∉ m.lastSpanMatches →
              ∀ rule, set.get fresh = some rule →
                name ∉ getDependencies rule.body set.byNamespacePrefix) ∧
          ∀ name, m'.results.get? name =
            match results.get? name with
            | none => m.results.get? name
            | some res =>
              if name ∈ suppressed then m.results.get? name
              else some ((m.results.get? name).getD [] ++ res) := by
  obtain ⟨results, hmatch, h⟩ := bind_eq_ok.mp h
  obtain rfl := Except.ok.inj h
  have hkeys : ∀ (r : MatchResults) name, name ∈ r.keys ↔ (r.get? name).isSome = true := by
    intro r name
    rw [← IndexMap.containsKey_eq_isSome, IndexMap.containsKey_iff]
    exact ⟨fun hk => ⟨name, hk, beq_self_eq_true name⟩, fun ⟨k, hk, he⟩ => eq_of_beq he ▸ hk⟩
  refine ⟨rfl, rfl, results, hmatch, fun name => ?_, _, fun name => mem_suppressedRules.trans ?_,
    fun name => get?_record record m.results results _ name⟩
  · exact OrdSet.mem_ofList.trans (hkeys results name)
  · refine and_congr_right fun _ => ?_
    simp only [List.mem_filter, decide_eq_true_eq, hkeys, encountered.get?_reorder, and_imp]

omit [RegexBackend] in
/-- Matches at one address are recorded unless they are suppressed. -/
theorem recordedAt_record {old results new : MatchResults} {suppressed : OrdSet String}
    {name : String} {a b : Address}
    (haddr : ∀ {res}, results.get? name = some res → res ≠ [] ∧ ∀ r ∈ res, r.1 = b)
    (hnew : new.get? name =
      match results.get? name with
      | none => old.get? name
      | some res =>
        if name ∈ suppressed then old.get? name else some ((old.get? name).getD [] ++ res)) :
    RecordedAt new name a ↔
      RecordedAt old name a ∨ b = a ∧ (results.get? name).isSome = true ∧ name ∉ suppressed := by
  unfold RecordedAt
  rw [hnew]
  cases hres : results.get? name with
  | none => simp
  | some res =>
    obtain ⟨hne, hall⟩ := haddr hres
    by_cases hs : name ∈ suppressed
    · simp [hs]
    · obtain ⟨r, hr⟩ := List.exists_mem_of_ne_nil res hne
      have hat : (∃ x, (a, x) ∈ res) ↔ b = a :=
        ⟨fun ⟨x, hx⟩ => (hall (a, x) hx).symm, fun h => ⟨r.2, by rwa [← h, ← hall r hr]⟩⟩
      cases hold : old.get? name with
      | none => simp [hs, hat]
      | some res' => simp [hs, hat, exists_or]

/-! ## All calls -/

/-- What the matcher keeps true of the calls it has seen. -/
structure Tracks (set : MatchingRuleSet) (history : List (Address × FeatureSet))
    (m : SpanOfCallsMatcher) : Prop where
  sets : m.currentFeatureSets = (history.drop (history.length - spanSize)).map (·.2)
  located : m.currentFeatures.Located
  locations : ∀ f a, a ∈ m.currentFeatures.locations f ↔
    ∃ S ∈ m.currentFeatureSets, a ∈ S.locations f
  last : ∀ name, name ∈ m.lastSpanMatches ↔ MatchedBefore set history history.length name
  recorded : ∀ name a, RecordedAt m.results name a ↔
    ∃ i e, history[i]? = some e ∧ e.1 = a ∧ Recordable set history i name

/-- The calls of a thread come in the order of their addresses. -/
structure Ordered (globals : List Feature) (history : List (Address × FeatureSet)) : Prop where
  placed : ∀ e ∈ history, Placed globals e.1 e.2
  sorted : history.Pairwise fun d e => d.1 < e.1

theorem Tracks.new : Tracks set [] SpanOfCallsMatcher.new where
  sets := rfl
  located := .empty
  locations f a := iff_of_false FeatureSet.not_mem_locations_empty fun ⟨_, h, _⟩ =>
    List.not_mem_nil h
  last name := iff_of_false (OrdSet.not_mem_empty name) fun ⟨j, hj, _⟩ => nomatch hj
  recorded name a := iff_of_false
    (fun ⟨_, hres, _⟩ => by rw [show SpanOfCallsMatcher.new.results = ∅ from rfl,
      IndexMap.get?_empty] at hres; cases hres)
    fun ⟨i, e, he, _⟩ => by rw [List.getElem?_nil] at he; cases he

variable {globals : List Feature}

/-- The window after a call is the last `spanSize` calls, and the live union is theirs. -/
theorem Tracks.window {m : SpanOfCallsMatcher} (h : Tracks set history m)
    (ho : Ordered globals (history ++ [e])) :
    m.overflowed.1 ++ [e.2] =
        ((history ++ [e]).drop (history.length + 1 - spanSize)).map (·.2) ∧
      (m.overflowed.2.merge e.2).Located ∧
      ∀ f a, a ∈ (m.overflowed.2.merge e.2).locations f ↔
        ∃ S ∈ m.overflowed.1 ++ [e.2], a ∈ S.locations f := by
  have hplaced : ∀ d ∈ history ++ [e], Placed globals d.1 d.2 := ho.placed
  have he := hplaced e (List.mem_append_right _ List.mem_cons_self)
  have hlen : m.currentFeatureSets.length = min history.length spanSize := by
    rw [h.sets, List.length_map, List.length_drop]
    omega
  unfold SpanOfCallsMatcher.overflowed
  by_cases hcount : history.length < spanSize
  · -- the window is not full: nothing leaves it
    have hzero : history.length - spanSize = 0 := by omega
    have hzero' : history.length + 1 - spanSize = 0 := by omega
    rw [if_neg (by omega), h.sets, hzero, hzero', List.drop_zero, List.drop_zero]
    refine ⟨by simp, h.located.merge he.located, fun f a => ?_⟩
    have hsets : m.currentFeatureSets = history.map (·.2) := by
      rw [h.sets, hzero, List.drop_zero]
    rw [FeatureSet.mem_locations_merge, h.locations, hsets]
    simp only [List.mem_append, List.mem_cons, List.not_mem_nil, or_false, or_and_right,
      exists_or, exists_eq_left]
  · -- the oldest call leaves the window
    have hlt : history.length - spanSize < history.length := by
      unfold spanSize at hcount ⊢
      omega
    obtain ⟨x, kept, hdrop⟩ : ∃ x kept, history.drop (history.length - spanSize) = x :: kept :=
      ⟨_, _, List.drop_eq_getElem_cons hlt⟩
    have hkept : history.drop (history.length + 1 - spanSize) = kept := by
      have hstep : history.length + 1 - spanSize = history.length - spanSize + 1 := by omega
      rw [hstep, ← List.drop_drop, hdrop]
      rfl
    have hsub : (x :: kept).Sublist history := hdrop ▸ List.drop_sublist _ _
    have hsorted : (x :: kept ++ [e]).Pairwise fun d e => d.1 < e.1 :=
      ho.sorted.sublist (hsub.append_right [e])
    obtain ⟨hx, hrest⟩ := List.pairwise_cons.mp hsorted
    have hmem : ∀ d ∈ x :: kept, Placed globals d.1 d.2 := fun d hd =>
      hplaced d (List.mem_append_left _ (hsub.subset hd))
    have hsets : m.currentFeatureSets = x.2 :: kept.map (·.2) := by rw [h.sets, hdrop]; rfl
    rw [if_pos (by omega), hsets, List.drop_append_of_le_length (by omega), hkept]
    refine ⟨by simp, (h.located.removeOverflowing x.2).merge he.located, fun f a => ?_⟩
    have hcur : ∀ f a, a ∈ m.currentFeatures.locations f ↔
        ∃ d ∈ x :: kept, a ∈ d.2.locations f := fun f a => by
      rw [h.locations, hsets]
      simp only [List.mem_cons, List.mem_map, or_and_right, exists_or, exists_eq_left,
        exists_exists_and_eq_and]
    have hslide := mem_locations_slide hcur (hmem x List.mem_cons_self)
      (fun d hd => ⟨hmem d (List.mem_cons_of_mem _ hd), hx d (List.mem_append_left _ hd)⟩) he
      (hx e (List.mem_append_right _ List.mem_cons_self)) f a
    rw [hslide]
    simp only [List.mem_append, List.mem_map, List.mem_cons, List.not_mem_nil, or_false,
      or_and_right, exists_or, exists_eq_left, exists_exists_and_eq_and]

variable [ComDatabase] {rules : List Rule}

/-- The rules that match the window of the last call are those that match on equal lookups. -/
theorem matchesSpan_last (hset : MatchingRuleSet.new rules = .ok set) {fs : FeatureSet}
    {results : MatchResults}
    (hlookups : ∀ f, fs.get? f = (spanWindow (history ++ [e]) history.length).get? f)
    (hmatch : set.matchScopeResults .spanOfCalls fs e.1 = .ok results) (name : String) :
    MatchesSpan set (history ++ [e]) history.length name ↔ (results.get? name).isSome = true := by
  have hrelated : Related (fun r r' : MatchResults => ∀ name,
        (r.get? name).isSome = (r'.get? name).isSome)
      (set.matchScopeResults .spanOfCalls fs e.1)
      (set.matchScopeResults .spanOfCalls (spanWindow (history ++ [e]) history.length) e.1) :=
    matchScope_of_lookups hset hlookups
  rw [hmatch] at hrelated
  unfold MatchesSpan
  rw [List.getElem?_concat_length]
  cases hout : set.matchScopeResults .spanOfCalls
      (spanWindow (history ++ [e]) history.length) e.1 with
  | error err =>
    rw [hout] at hrelated
    cases hrelated
  | ok results' =>
    rw [hout] at hrelated
    cases hrelated with
    | ok hsame =>
      rw [hsame name]
      constructor
      · intro h
        obtain ⟨d, found, hd, hfound, hsome⟩ := h
        obtain rfl := Option.some.inj hd
        rw [hout] at hfound
        rwa [Except.ok.inj hfound]
      · exact fun hsome => ⟨e, results', rfl, hout, hsome⟩

theorem Tracks.next (hset : MatchingRuleSet.new rules = .ok set) {encountered record : IterOrder}
    {m m' : SpanOfCallsMatcher} (h : Tracks set history m) (ho : Ordered globals (history ++ [e]))
    (hnext : m.next set encountered record e.1 e.2 = .ok m') :
    Tracks set (history ++ [e]) m' ∧
      ∀ f, m'.currentFeatures.get? f = (spanWindow (history ++ [e]) history.length).get? f := by
  obtain ⟨hsets, hcur, results, hmatch, hlast, suppressed, hsup, hrec⟩ :=
    SpanOfCallsMatcher.next_ok hnext
  obtain ⟨hwindow, hlocated, hmem⟩ := h.window ho
  have hlen : (history ++ [e]).length = history.length + 1 := by simp
  have hlookups : ∀ f, m'.currentFeatures.get? f =
      (spanWindow (history ++ [e]) history.length).get? f := by
    rw [spanWindow_last, hcur, ← hwindow]
    refine FeatureSet.get?_eq_of_locations hlocated (.join fun S hS => ?_) fun f a => ?_
    · rw [hwindow] at hS
      obtain ⟨d, hd, rfl⟩ := List.mem_map.mp hS
      exact (ho.placed d ((List.drop_sublist _ _).subset hd)).located
    · rw [hmem, FeatureSet.mem_locations_join]
  have hnow : ∀ name, MatchesSpan set (history ++ [e]) history.length name ↔
      (results.get? name).isSome = true := matchesSpan_last hset hlookups hmatch
  have hbefore : ∀ name, MatchedBefore set (history ++ [e]) history.length name ↔
      name ∈ m.lastSpanMatches := fun name => by
    rw [matchedBefore_append le_rfl, h.last]
  refine ⟨⟨hsets.trans (by rw [hwindow, hlen]), hcur ▸ hlocated, ?_, fun name => ?_,
    fun name a => ?_⟩, hlookups⟩
  · rw [hcur, hsets]
    exact hmem
  · rw [hlast, ← hnow, hlen]
    exact ⟨fun hm => ⟨_, rfl, hm⟩, fun ⟨j, hj, hm⟩ => Nat.succ.inj hj ▸ hm⟩
  · have haddr : ∀ {res}, results.get? name = some res → res ≠ [] ∧ ∀ r ∈ res, r.1 = e.1 :=
      fun hres => matchScopeResults_addr hset hmatch hres
    rw [recordedAt_record haddr (hrec name), h.recorded, ← recordable_last hnow hbefore hsup,
      exists_recordable_append]

/-- The feature set of every call, with its address. -/
def callHistory (set : MatchingRuleSet) (orders : ThreadOrders) (globals : List Feature)
    (calls : List (Address × CallFeatures)) : Except EngineError (List (Address × FeatureSet)) :=
  calls.mapM fun e => do
    let (callFeatures, _) ← findCallCapabilities set (orders.promoteCall e.1) e.1 e.2 globals
    return (e.1, callFeatures)

omit [ComDatabase] in
theorem callHistory_append {orders : ThreadOrders} {calls : List (Address × CallFeatures)}
    {c : Address × CallFeatures} {S : FeatureSet} {results : MatchResults}
    (h : callHistory set orders globals calls = .ok history)
    (hc : findCallCapabilities set (orders.promoteCall c.1) c.1 c.2 globals = .ok (S, results)) :
    callHistory set orders globals (calls ++ [c]) = .ok (history ++ [(c.1, S)]) := by
  unfold callHistory at h ⊢
  rw [List.mapM_append, h, List.mapM_cons, hc]
  rfl

/-- After every call of a thread the matcher tracks the feature sets of the calls so far. -/
theorem visitCalls_tracks (hset : MatchingRuleSet.new rules = .ok set) {orders : ThreadOrders}
    {calls : List (Address × CallFeatures)} (hsorted : calls.Pairwise fun c d => c.1 < d.1)
    (hown : ∀ c ∈ calls, ∀ l ∈ c.2.features, l.1 = c.1) {acc : CallLoop}
    (h : visitCalls set orders globals calls = .ok acc) :
    ∃ history, callHistory set orders globals calls = .ok history ∧
      history.map (·.1) = calls.map (·.1) ∧ Ordered globals history ∧
      Tracks set history acc.spanMatcher ∧
      ∀ i, i + 1 = calls.length → ∀ f,
        acc.spanMatcher.currentFeatures.get? f = (spanWindow history i).get? f := by
  induction calls using List.reverseRecOn generalizing acc with
  | nil =>
    obtain rfl := Except.ok.inj h
    exact ⟨[], rfl, rfl, ⟨fun e he => absurd he List.not_mem_nil, .nil⟩, .new,
      fun i hi => nomatch hi⟩
  | append_singleton calls c ih =>
    obtain ⟨hsorted', _, hlt⟩ := List.pairwise_append.mp hsorted
    unfold visitCalls at h
    rw [List.foldlM_append] at h
    obtain ⟨acc', hcalls, h⟩ := bind_eq_ok.mp h
    rw [List.foldlM_cons] at h
    obtain ⟨acc'', hvisit, h⟩ := bind_eq_ok.mp h
    obtain rfl := Except.ok.inj h
    obtain ⟨⟨S, results⟩, hc, hvisit⟩ := bind_eq_ok.mp hvisit
    obtain ⟨m, hnext, hvisit⟩ := bind_eq_ok.mp hvisit
    obtain rfl := Except.ok.inj hvisit
    obtain ⟨history, hhist, haddrs, hord, htracks, _⟩ :=
      ih hsorted' (fun d hd => hown d (List.mem_append_left _ hd)) hcalls
    have hlen : history.length = calls.length := by
      rw [← List.length_map (·.1), haddrs, List.length_map]
    have hplaced : Placed globals c.1 S :=
      findCallCapabilities_placed hset (hown c (List.mem_append_right _ List.mem_cons_self)) hc
    have hord' : Ordered globals (history ++ [(c.1, S)]) := by
      refine ⟨fun e he => ?_, List.pairwise_append.mpr ⟨hord.sorted, List.pairwise_singleton _ _,
        fun d hd e he => ?_⟩⟩
      · rcases List.mem_append.mp he with he | he
        · exact hord.placed e he
        · rw [List.mem_singleton.mp he]
          exact hplaced
      · have hd' : d.1 ∈ calls.map (·.1) := haddrs ▸ List.mem_map_of_mem hd
        obtain ⟨d', hmem, hd'⟩ := List.mem_map.mp hd'
        rw [List.mem_singleton.mp he, ← hd']
        exact hlt d' hmem c List.mem_cons_self
    obtain ⟨htracks', hlookups⟩ := htracks.next hset hord' hnext
    refine ⟨_, callHistory_append hhist hc, by simp [haddrs], hord', htracks', fun i hi => ?_⟩
    obtain rfl : i = history.length := by
      rw [List.length_append, List.length_singleton] at hi
      omega
    exact hlookups

/-- After each call of a thread whose calls carry features at their own address, the live union
    has the lookups of the recomputed window, and a rule is recorded at a call exactly when the
    recomputed windows of the call and of the one before say so. A feature that equals nothing, a
    NaN, is found by no lookup on either side. -/
theorem spanMatcher_eq_recomputation (hset : MatchingRuleSet.new rules = .ok set)
    (orders : ThreadOrders) (globals : List Feature) (thread : ThreadFeatures)
    (hown : ∀ c ∈ thread.calls.entries, ∀ l ∈ c.2.features, l.1 = c.1)
    (calls : List (Address × CallFeatures)) (hcalls : calls <+: thread.calls.entries)
    (acc : CallLoop) (h : visitCalls set orders globals calls = .ok acc) :
    ∃ history, callHistory set orders globals calls = .ok history ∧
      (∀ i, i + 1 = calls.length → ∀ f,
        acc.spanMatcher.currentFeatures.get? f = (spanWindow history i).get? f) ∧
      ∀ i c, calls[i]? = some c → ∀ name,
        RecordedAt acc.spanMatcher.results name c.1 ↔ Recordable set history i name := by
  have hsorted : calls.Pairwise fun c d => c.1 < d.1 := thread.calls.sorted.sublist hcalls.sublist
  obtain ⟨history, hhist, haddrs, _, htracks, hlookups⟩ :=
    visitCalls_tracks hset hsorted (fun c hc => hown c (hcalls.subset hc)) h
  refine ⟨history, hhist, hlookups, fun i c hc name => (htracks.recorded name c.1).trans ?_⟩
  have hnodup : (calls.map (·.1)).Nodup :=
    List.pairwise_map.mpr (hsorted.imp fun h => ne_of_lt h)
  have hat : ∀ {j : Nat} {e : Address × FeatureSet}, history[j]? = some e →
      (calls.map (·.1))[j]? = some e.1 := fun {j e} he => by
    rw [← haddrs, List.getElem?_map, he]
    rfl
  have hi : (calls.map (·.1))[i]? = some c.1 := by rw [List.getElem?_map, hc]; rfl
  constructor
  · intro ⟨j, e, he, ha, hr⟩
    have hj := hat he
    rw [ha, ← hi] at hj
    have hlt : j < (calls.map (·.1)).length := by
      rw [← haddrs, List.length_map]
      exact (List.getElem?_eq_some_iff.mp he).1
    rwa [(List.getElem?_inj hlt hnodup).mp hj] at hr
  · intro hr
    obtain ⟨e, _, he, _⟩ := hr.1
    refine ⟨i, e, he, ?_, hr⟩
    exact Option.some.inj ((hat he).symm.trans hi)

end

/-- A file is created and written to by two calls in a row. -/
def openThenWrite : List Rule :=
  [.minimal "open then write" none ⟨none, some .spanOfCalls⟩
    ⟨.and [⟨.leaf (.api "CreateFile"), none⟩, ⟨.leaf (.api "WriteFile"), none⟩], none⟩]

def writingThread : ThreadFeatures where
  features := []
  calls := .ofList [(.call 0 1 1 0, ⟨[(.call 0 1 1 0, .api "CreateFile")]⟩),
    (.call 0 1 1 1, ⟨[(.call 0 1 1 1, .api "WriteFile")]⟩)]

theorem spanMatcher_eq_recomputation_openThenWrite :
    ∃ set acc, @MatchingRuleSet.new .empty openThenWrite = .ok set ∧
      @visitCalls .empty set .insertion [.os "windows"] writingThread.calls.entries = .ok acc ∧
      ∃ history, @callHistory .empty set .insertion [.os "windows"]
          writingThread.calls.entries = .ok history ∧
        (∀ i, i + 1 = writingThread.calls.entries.length → ∀ f,
          acc.spanMatcher.currentFeatures.get? f = (spanWindow history i).get? f) ∧
        ∀ i c, writingThread.calls.entries[i]? = some c → ∀ name,
          RecordedAt acc.spanMatcher.results name c.1 ↔
            @Recordable .empty set history i name := by
  have hown : ∀ c ∈ writingThread.calls.entries, ∀ l ∈ c.2.features, l.1 = c.1 := by decide
  refine ⟨_, _, rfl, rfl, ?_⟩
  exact @spanMatcher_eq_recomputation .empty _ .empty openThenWrite rfl .insertion
    [.os "windows"] writingThread hown _ (List.prefix_refl _) _ rfl

end CapaX
