import CapaX.Engine.Alike

/-
  Feature sets by the locations of their features. `locations` is the lookup with no location for
  a feature that is absent, and a set is `Located` when every feature it has is somewhere. A
  located set is determined by its locations (`get?_eq_of_locations`), and each operation has one
  lemma that says which locations it adds or removes.
-/

namespace CapaX

open Collections

namespace FeatureSet

/-- Where a feature is, nowhere when it is absent. -/
def locations (fs : FeatureSet) (f : Feature) : OrdSet Address := (fs.get? f).getD ∅

/-- Every feature that is present has a location. -/
def Located (fs : FeatureSet) : Prop := ∀ f locs, fs.get? f = some locs → ∃ a, a ∈ locs

@[simp] theorem not_mem_locations_empty {f : Feature} {a : Address} :
    a ∉ (∅ : FeatureSet).locations f := OrdSet.not_mem_empty a

theorem Located.empty : Located ∅ := fun f locs h => by
  rw [IndexMap.get?_empty] at h
  cases h

theorem mem_locations_iff {fs : FeatureSet} {f : Feature} {a : Address} :
    a ∈ fs.locations f ↔ ∃ locs, fs.get? f = some locs ∧ a ∈ locs := by
  unfold locations
  cases fs.get? f with
  | none => exact ⟨fun h => absurd h (OrdSet.not_mem_empty a), fun ⟨_, h, _⟩ => (nomatch h)⟩
  | some locs => exact ⟨fun h => ⟨locs, rfl, h⟩, fun ⟨_, h, ha⟩ => Option.some.inj h ▸ ha⟩

theorem locations_congr {fs : FeatureSet} {f g : Feature} (h : (f == g) = true) :
    fs.locations f = fs.locations g := by
  rw [locations, locations, IndexMap.get?_congr h]

theorem Located.isSome_iff {fs : FeatureSet} (h : fs.Located) {f : Feature} :
    (fs.get? f).isSome = true ↔ ∃ a, a ∈ fs.locations f := by
  rw [Option.isSome_iff_exists]
  constructor
  · intro ⟨locs, hl⟩
    obtain ⟨a, ha⟩ := h f locs hl
    exact ⟨a, mem_locations_iff.mpr ⟨locs, hl, ha⟩⟩
  · intro ⟨a, ha⟩
    obtain ⟨locs, hl, _⟩ := mem_locations_iff.mp ha
    exact ⟨locs, hl⟩

/-- Located sets with the same locations have the same lookups. -/
theorem get?_eq_of_locations {fs fs' : FeatureSet} (h : fs.Located) (h' : fs'.Located)
    (hl : ∀ f a, a ∈ fs.locations f ↔ a ∈ fs'.locations f) (f : Feature) :
    fs.get? f = fs'.get? f := by
  have hsome : (fs.get? f).isSome = true ↔ (fs'.get? f).isSome = true := by
    rw [h.isSome_iff, h'.isSome_iff]
    exact exists_congr (hl f)
  have heq : fs.locations f = fs'.locations f := OrdSet.ext_mem (hl f)
  unfold locations at heq
  cases hf : fs.get? f with
  | none =>
    cases hf' : fs'.get? f with
    | none => rfl
    | some locs =>
      rw [hf, hf'] at hsome
      exact absurd (hsome.mpr rfl) Bool.false_ne_true
  | some locs =>
    cases hf' : fs'.get? f with
    | none =>
      rw [hf, hf'] at hsome
      exact absurd (hsome.mp rfl) Bool.false_ne_true
    | some locs' =>
      rw [hf, hf'] at heq
      exact congrArg some heq

/-! ## Insertions and merges -/

theorem mem_locations_insertMany {fs : FeatureSet} {f g : Feature} {locs : OrdSet Address}
    {a : Address} :
    a ∈ (fs.insertMany f locs).locations g ↔
      a ∈ fs.locations g ∨ (f == g) = true ∧ a ∈ locs := by
  unfold locations
  rw [get?_insertMany]
  by_cases h : (f == g) = true
  · rw [if_pos h, IndexMap.get?_congr h, Option.getD_some, OrdSet.mem_union]
    simp [h]
  · rw [if_neg h]
    simp [h]

theorem Located.insertMany {fs : FeatureSet} (h : fs.Located) (f : Feature)
    {locs : OrdSet Address} (hl : ∃ a, a ∈ locs) : (fs.insertMany f locs).Located := by
  intro g locs' hg
  rw [get?_insertMany] at hg
  split at hg
  · obtain ⟨a, ha⟩ := hl
    exact ⟨a, by rw [← Option.some.inj hg]; exact OrdSet.mem_union.mpr (Or.inr ha)⟩
  · exact h g locs' hg

theorem insert_eq_insertMany (fs : FeatureSet) (f : Feature) (addr : Address) :
    fs.insert f addr = fs.insertMany f (.singleton addr) := by
  unfold FeatureSet.insert FeatureSet.insertMany
  refine congrArg (fs.upsert f) (funext fun o => OrdSet.ext_mem fun a => ?_)
  rw [OrdSet.mem_insert, OrdSet.mem_union, OrdSet.mem_singleton]
  exact or_comm

theorem mem_locations_insert {fs : FeatureSet} {f g : Feature} {addr a : Address} :
    a ∈ (fs.insert f addr).locations g ↔
      a ∈ fs.locations g ∨ (f == g) = true ∧ a = addr := by
  rw [insert_eq_insertMany, mem_locations_insertMany, OrdSet.mem_singleton]

theorem Located.insert {fs : FeatureSet} (h : fs.Located) (f : Feature) (addr : Address) :
    (fs.insert f addr).Located := by
  rw [insert_eq_insertMany]
  exact h.insertMany f ⟨addr, OrdSet.mem_singleton.mpr rfl⟩

theorem mem_locations_mergeOwned {fs other : FeatureSet} {f : Feature} {a : Address} :
    a ∈ (fs.mergeOwned other).locations f ↔ a ∈ fs.locations f ∨ a ∈ other.locations f := by
  unfold locations
  rw [get?_mergeOwned]
  cases other.get? f with
  | none => exact (or_iff_left (OrdSet.not_mem_empty a)).symm
  | some locs => exact OrdSet.mem_union

theorem Located.mergeOwned {fs other : FeatureSet} (h : fs.Located) (ho : other.Located) :
    (fs.mergeOwned other).Located := by
  intro f locs hf
  rw [get?_mergeOwned] at hf
  split at hf
  · exact h f locs hf
  · next l hl =>
    obtain ⟨a, ha⟩ := ho f l hl
    exact ⟨a, by rw [← Option.some.inj hf]; exact OrdSet.mem_union.mpr (Or.inr ha)⟩

theorem mem_locations_merge {fs other : FeatureSet} {f : Feature} {a : Address} :
    a ∈ (fs.merge other).locations f ↔ a ∈ fs.locations f ∨ a ∈ other.locations f := by
  rw [merge_eq_mergeOwned, mem_locations_mergeOwned]

theorem Located.merge {fs other : FeatureSet} (h : fs.Located) (ho : other.Located) :
    (fs.merge other).Located := by
  rw [merge_eq_mergeOwned]
  exact h.mergeOwned ho

/-! ## Publishing matches -/

theorem mem_locations_publish {fs : FeatureSet} {values : List String} {locs : OrdSet Address}
    {f : Feature} {a : Address} :
    a ∈ (fs.publish values locs).locations f ↔
      a ∈ fs.locations f ∨ (∃ v ∈ values, f = .matchedRule v) ∧ a ∈ locs := by
  unfold locations
  by_cases h : ∃ v ∈ values, f = .matchedRule v
  · obtain ⟨v, hv, rfl⟩ := h
    rw [get?_publish_of_mem hv, Option.getD_some, OrdSet.mem_union]
    exact or_congr_right (and_iff_right ⟨v, hv, rfl⟩).symm
  · rw [get?_publish_of_not fun v hv he => h ⟨v, hv, he⟩]
    exact (or_iff_left fun hf => h hf.1).symm

theorem Located.publish {fs : FeatureSet} (h : fs.Located) (values : List String)
    {locs : OrdSet Address} (hl : ∃ a, a ∈ locs) : (fs.publish values locs).Located := by
  induction values generalizing fs with
  | nil => exact h
  | cons v values ih => exact ih (h.insertMany (.matchedRule v) hl)

theorem mem_locations_publishAll {fs : FeatureSet} {ps : List (List String × OrdSet Address)}
    {f : Feature} {a : Address} :
    a ∈ (fs.publishAll ps).locations f ↔
      a ∈ fs.locations f ∨ ∃ p ∈ ps, (∃ v ∈ p.1, f = .matchedRule v) ∧ a ∈ p.2 := by
  induction ps generalizing fs with
  | nil => exact (or_iff_left fun ⟨_, hp, _⟩ => List.not_mem_nil hp).symm
  | cons p ps ih =>
    have hstep : fs.publishAll (p :: ps) = (fs.publish p.1 p.2).publishAll ps := rfl
    rw [hstep, ih, mem_locations_publish, or_assoc, List.exists_mem_cons_iff]

theorem Located.publishAll {fs : FeatureSet} (h : fs.Located)
    {ps : List (List String × OrdSet Address)} (hl : ∀ p ∈ ps, ∃ a, a ∈ p.2) :
    (fs.publishAll ps).Located := by
  induction ps generalizing fs with
  | nil => exact h
  | cons p ps ih =>
    exact ih (h.publish p.1 (hl p List.mem_cons_self)) fun q hq => hl q (List.mem_cons_of_mem _ hq)

/-! ## Match features -/

/-- A match value is among the features. -/
def Has (fs : FeatureSet) (v : String) : Prop := (fs.get? (.matchedRule v)).isSome = true

variable {fs other : FeatureSet} {v : String}

theorem not_has_empty : ¬ (∅ : FeatureSet).Has v := Bool.false_ne_true

theorem has_upsert {f : Feature} {u : Option (OrdSet Address) → OrdSet Address} :
    Has (fs.upsert f u) v ↔ fs.Has v ∨ f = .matchedRule v := by
  unfold Has
  rw [IndexMap.get?_upsert]
  by_cases h : f = .matchedRule v
  · rw [if_pos (by rw [h]; exact Feature.beq_self rfl)]
    simp [h]
  · have hbeq : ¬ (f == Feature.matchedRule v) = true := fun hb =>
      h (Feature.matchedRule_beq_iff.mp (BEq.symm hb))
    rw [if_neg hbeq]
    exact (or_iff_left h).symm

theorem has_mergeOwned : (fs.mergeOwned other).Has v ↔ fs.Has v ∨ other.Has v := by
  unfold Has
  rw [get?_mergeOwned]
  cases other.get? (.matchedRule v) with
  | none => simp
  | some locs => simp

theorem has_merge : (fs.merge other).Has v ↔ fs.Has v ∨ other.Has v := by
  rw [merge_eq_mergeOwned, has_mergeOwned]

theorem has_publish {values : List String} {locs : OrdSet Address} :
    (fs.publish values locs).Has v ↔ fs.Has v ∨ v ∈ values := by
  by_cases h : v ∈ values
  · unfold Has
    rw [get?_publish_of_mem h]
    exact iff_of_true rfl (Or.inr h)
  · unfold Has
    have hnot : ∀ w ∈ values, Feature.matchedRule v ≠ .matchedRule w := fun w hw he =>
      h (Feature.matchedRule.inj he ▸ hw)
    rw [get?_publish_of_not hnot]
    exact (or_iff_left h).symm

theorem has_publishAll {ps : List (List String × OrdSet Address)} :
    (fs.publishAll ps).Has v ↔ fs.Has v ∨ ∃ p ∈ ps, v ∈ p.1 := by
  induction ps generalizing fs with
  | nil => exact (or_iff_left fun ⟨_, hp, _⟩ => List.not_mem_nil hp).symm
  | cons p ps ih =>
    have hstep : fs.publishAll (p :: ps) = (fs.publish p.1 p.2).publishAll ps := rfl
    rw [hstep, ih, has_publish, or_assoc, List.exists_mem_cons_iff]

end FeatureSet

section

variable [RegexBackend]

/-- A match leaf is true when its value is among the features. -/
theorem leafBoolean_matchedRule {fs : FeatureSet} {v : String} :
    leafBoolean fs (.matchedRule v) = .ok true ↔ fs.Has v := by
  unfold FeatureSet.Has
  rw [← IndexMap.containsKey_eq_isSome]
  exact ⟨Except.ok.inj, congrArg Except.ok⟩

end

end CapaX
