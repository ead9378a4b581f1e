import CapaX.Capabilities.Extraction
import CapaX.Capabilities.Ruleset
import CapaX.Engine.FeatureSets

/-
  The feature index loses nothing: `matchScope` returns what the plain walk over the rules of
  the scope returns (`matchLinear`).

  `Fires fs f` says that the bucket the alternative `f` is filed in is looked up for `fs`. A body
  none of whose alternatives fires does not hold (`requiredFeatures_sound`), so a position that
  is not a candidate may be skipped, and a match published later brings back every position it
  makes fire (`matchLoop_eq`).
-/

namespace CapaX

open Collections Node

/-! ## Alternatives -/

/-- An alternative fires on a feature set when its bucket is looked at. -/
def Fires (fs : FeatureSet) : Feature → Bool
  | .string (.substring _) | .string (.regex _) => fs.keys.any Feature.isString
  | .bytes _ => fs.keys.any Feature.isBytes
  | .os _ => fs.keys.any Feature.isOs
  | f => fs.containsKey f

theorem containsKey_congr {fs : FeatureSet} {f g : Feature} (h : (f == g) = true) :
    fs.containsKey f = fs.containsKey g := by
  rw [IndexMap.containsKey_eq_isSome, IndexMap.containsKey_eq_isSome, IndexMap.get?_congr h]

/-- Equal alternatives are filed in one bucket. -/
theorem fires_congr {fs : FeatureSet} {f g : Feature} (h : (f == g) = true) :
    Fires fs f = Fires fs g := by
  rcases Feature.beq_iff.mp h with ⟨x, y, rfl, rfl, _⟩ | ⟨i, x, y, rfl, rfl, _⟩ |
    ⟨x, y, rfl, rfl, _⟩ | ⟨_, rfl⟩
  · exact containsKey_congr h
  · exact containsKey_congr h
  · rfl
  · rfl

/-- A feature that is present fires. -/
theorem fires_of_containsKey {fs : FeatureSet} {f : Feature} (h : fs.containsKey f = true) :
    Fires fs f = true := by
  obtain ⟨k, hk, he⟩ := IndexMap.containsKey_iff.mp h
  have hany : ∀ p : Feature → Bool, p k = true → fs.keys.any p = true := fun p hp =>
    List.any_eq_true.mpr ⟨k, hk, hp⟩
  rcases Feature.beq_iff.mp he with ⟨x, y, rfl, rfl, _⟩ | ⟨i, x, y, rfl, rfl, _⟩ |
    ⟨x, y, rfl, rfl, _⟩ | ⟨_, rfl⟩
  · exact h
  · exact h
  · exact hany _ rfl
  · unfold Fires
    split
    · exact hany _ rfl
    · exact hany _ rfl
    · exact hany _ rfl
    · exact hany _ rfl
    · exact h

/-- Only a key that a lookup finds fires. -/
theorem beq_self_of_fires {fs : FeatureSet} {f : Feature} (h : Fires fs f = true) :
    (f == f) = true := by
  unfold Fires at h
  split at h
  · exact Feature.beq_self rfl
  · exact Feature.beq_iff.mpr (Or.inr (Or.inr (Or.inl ⟨_, _, rfl, rfl, rfl⟩)))
  · exact Feature.beq_self rfl
  · exact Feature.beq_self rfl
  · obtain ⟨k, _, he⟩ := IndexMap.containsKey_iff.mp h
    exact BEq.trans (BEq.symm he) he

/-- A count that may not be zero fires when it is in range. -/
theorem fires_of_inRange {fs : FeatureSet} {f : Feature} {min : UInt32} {max : Option UInt32}
    (hmin : min ≠ 0) (h : inRange (locationCount fs f) min max = true) : Fires fs f = true := by
  refine fires_of_containsKey ?_
  have hle : min ≤ locationCount fs f := of_decide_eq_true (Bool.and_eq_true_iff.mp h).1
  rw [IndexMap.containsKey_eq_isSome]
  by_contra hn
  have hnone : fs.get? f = none := Option.not_isSome_iff_eq_none.mp hn
  have hzero : locationCount fs f = 0 := by rw [locationCount, hnone]; rfl
  rw [hzero, UInt32.le_iff_toNat_le] at hle
  exact hmin (UInt32.toNat_inj.mp (Nat.le_zero.mp hle))

/-! ### Required features -/

theorem requiredOfAnd_some {cs : List Node} {best : Option Required} {r : Required}
    (h : requiredOfAnd cs best = some r) :
    best = some r ∨ ∃ c ∈ cs, requiredFeatures c = some r := by
  induction cs generalizing best with
  | nil => exact Or.inl h
  | cons c cs ih =>
    unfold requiredOfAnd at h
    split at h
    · rcases ih h with h | ⟨c', hc', h⟩
      · exact Or.inl h
      · exact Or.inr ⟨c', List.mem_cons_of_mem _ hc', h⟩
    · next rc hrc =>
      rcases ih h with h | ⟨c', hc', h⟩
      · have hbetter : best = some r ∨ rc = r := by
          have h := Option.some.inj h
          unfold Required.better at h
          split at h
          · exact Or.inr h
          · split at h
            · exact Or.inr h
            · exact Or.inl (congrArg some h)
        exact hbetter.imp id fun (h : rc = r) => ⟨c, List.mem_cons_self, by rw [hrc, h]⟩
      · exact Or.inr ⟨c', List.mem_cons_of_mem _ hc', h⟩

/-- A feature inserted into a set is in it, up to equality of features. -/
theorem fires_insertFeature {fs : FeatureSet} {l : List Feature} {f : Feature}
    (h : ∀ g ∈ insertFeature l f, Fires fs g = false) :
    (∀ g ∈ l, Fires fs g = false) ∧ Fires fs f = false := by
  unfold insertFeature at h
  split at h
  · next hany =>
    obtain ⟨g, hg, he⟩ := List.any_eq_true.mp hany
    exact ⟨h, by rw [← fires_congr he]; exact h g hg⟩
  · exact ⟨fun g hg => h g (List.mem_append_left _ hg),
      h f (List.mem_append_right _ (List.mem_singleton.mpr rfl))⟩

theorem fires_insertFeatures {fs : FeatureSet} {l new : List Feature}
    (h : ∀ g ∈ new.foldl insertFeature l, Fires fs g = false) :
    (∀ g ∈ l, Fires fs g = false) ∧ ∀ g ∈ new, Fires fs g = false := by
  induction new generalizing l with
  | nil => exact ⟨h, fun _ hg => absurd hg List.not_mem_nil⟩
  | cons f new ih =>
    obtain ⟨hl, hnew⟩ := ih h
    obtain ⟨hl, hf⟩ := fires_insertFeature hl
    refine ⟨hl, fun g hg => ?_⟩
    rcases List.mem_cons.mp hg with rfl | hg
    · exact hf
    · exact hnew g hg

/-- When nothing a disjunction collects fires, nothing its children require fires. -/
theorem requiredOfOr_some {fs : FeatureSet} {cs : List Node} {acc r : Required}
    (h : requiredOfOr cs acc = some r) (hr : ∀ f ∈ r.alternatives, Fires fs f = false) :
    (∀ f ∈ acc.alternatives, Fires fs f = false) ∧
      ∀ c ∈ cs, ∃ rc, requiredFeatures c = some rc ∧
        ∀ f ∈ rc.alternatives, Fires fs f = false := by
  induction cs generalizing acc with
  | nil =>
    obtain rfl := Option.some.inj h
    exact ⟨hr, fun _ hc => absurd hc List.not_mem_nil⟩
  | cons c cs ih =>
    unfold requiredOfOr at h
    split at h
    · cases h
    · next rc hrc =>
      obtain ⟨hacc, hcs⟩ := ih h
      obtain ⟨hacc, hnew⟩ := fires_insertFeatures hacc
      refine ⟨hacc, fun c' hc' => ?_⟩
      rcases List.mem_cons.mp hc' with rfl | hc'
      · exact ⟨rc, hrc, hnew⟩
      · exact hcs c' hc'

section

variable [RegexBackend]

/-- A leaf that holds fires. -/
theorem fires_of_leafHolds {fs : FeatureSet} {f : Feature} (h : leafHolds fs f = true) :
    Fires fs f = true := by
  have hstr : ∀ q : String → Bool, (fs.keys.filterMap stringValue).any q = true →
      fs.keys.any Feature.isString = true := by
    intro q hq
    obtain ⟨v, hv, _⟩ := List.any_eq_true.mp hq
    obtain ⟨k, hk, hkv⟩ := List.mem_filterMap.mp hv
    refine List.any_eq_true.mpr ⟨k, hk, ?_⟩
    unfold stringValue at hkv
    split at hkv
    · rfl
    · rfl
    · rfl
    · cases hkv
  have hbool : leafBoolean fs f = .ok true := by
    unfold leafHolds at h
    split at h
    · next b hb => rw [hb, h]
    · cases h
  unfold leafBoolean at hbool
  split at hbool
  · exact hstr _ (Except.ok.inj hbool)
  · exact hstr _ (Except.ok.inj hbool)
  · obtain ⟨k, hk, hkb⟩ := List.any_eq_true.mp (Except.ok.inj hbool)
    exact List.any_eq_true.mpr ⟨k, hk, by cases k <;> first | rfl | exact Bool.noConfusion hkb⟩
  · obtain ⟨k, hk, hkb⟩ := List.any_eq_true.mp (Except.ok.inj hbool)
    exact List.any_eq_true.mpr ⟨k, hk, by cases k <;> first | rfl | exact Bool.noConfusion hkb⟩
  · cases hbool
  · exact fires_of_containsKey (Except.ok.inj hbool)

/-- The alternatives of a body are necessary: it does not hold unless one of them fires. -/
theorem requiredFeatures_sound {fs : FeatureSet} {n : Node} {r : Required}
    (h : requiredFeatures n = some r) (hr : ∀ f ∈ r.alternatives, Fires fs f = false) :
    n.reads fs.reading = false := by
  induction n using Node.induct generalizing r with
  | and cs d ih =>
    rw [requiredFeatures] at h
    obtain ⟨c, hc, hrc⟩ := (requiredOfAnd_some h).resolve_left fun h => (nomatch h)
    rw [reads_and, List.all_eq_false]
    exact ⟨c, hc, by rw [ih c hc hrc hr]; exact Bool.false_ne_true⟩
  | or cs d ih =>
    rw [requiredFeatures] at h
    rw [reads_or, List.any_eq_false]
    intro c hc
    obtain ⟨rc, hrc, hfires⟩ := (requiredOfOr_some h hr).2 c hc
    rw [ih c hc hrc hfires]
    exact Bool.false_ne_true
  | not c d ih => cases h
  | some count cs d ih =>
    rw [requiredFeatures] at h
    split at h
    · cases h
    · next hcount =>
      have hall : ∀ b ∈ cs.map (reads fs.reading), b ≠ true := by
        intro b hb
        obtain ⟨c, hc, rfl⟩ := List.mem_map.mp hb
        obtain ⟨rc, hrc, hfires⟩ := (requiredOfOr_some h hr).2 c hc
        rw [ih c hc hrc hfires]
        exact Bool.false_ne_true
      have hzero : (cs.map (reads fs.reading)).count true = 0 :=
        List.count_eq_zero.mpr fun hmem => hall true hmem rfl
      have hpos : ¬ count.toNat ≤ 0 := fun hle =>
        hcount (UInt32.toNat_inj.mp (Nat.le_zero.mp hle))
      rw [reads_some]
      show quorum count _ = false
      rw [quorum, hzero, decide_eq_false hpos, Bool.and_false]
  | range f min max d =>
    rw [requiredFeatures] at h
    split at h
    · cases h
    · next hmin =>
      obtain rfl := Option.some.inj h
      rw [reads_range, ← Bool.not_eq_true]
      intro hin
      have hf := fires_of_inRange hmin hin
      rw [hr f (List.mem_singleton.mpr rfl)] at hf
      cases hf
  | subscope s b d ih => cases h
  | leaf f d =>
    rw [requiredFeatures] at h
    obtain rfl := Option.some.inj h
    rw [reads_leaf, ← Bool.not_eq_true]
    intro hholds
    have hf := fires_of_leafHolds hholds
    rw [hr f (List.mem_singleton.mpr rfl)] at hf
    cases hf

end

/-! ## What the index holds -/

namespace RuleFeatureIndex

/-- The positions filed under an alternative. -/
def bucket (index : RuleFeatureIndex) : Feature → List Nat
  | .string (.substring _) | .string (.regex _) => index.strings
  | .bytes _ => index.bytes
  | .os _ => index.os
  | f => (index.exact.get? f).getD []

/-- Every position the index holds is below `n`. -/
structure Below (index : RuleFeatureIndex) (n : Nat) : Prop where
  exact : ∀ f, ∀ p ∈ (index.exact.get? f).getD [], p < n
  strings : ∀ p ∈ index.strings, p < n
  bytes : ∀ p ∈ index.bytes, p < n
  os : ∀ p ∈ index.os, p < n
  always : ∀ p ∈ index.always, p < n

/-- One index holds what another holds. -/
structure Le (index index' : RuleFeatureIndex) : Prop where
  bucket : ∀ f, ∀ p ∈ index.bucket f, p ∈ index'.bucket f
  always : ∀ p ∈ index.always, p ∈ index'.always

theorem bucket_exact (index : RuleFeatureIndex) {f : Feature}
    (hs : ∀ v, f ≠ .string (.substring v)) (hr : ∀ re, f ≠ .string (.regex re))
    (hb : ∀ v, f ≠ .bytes v) (ho : ∀ v, f ≠ .os v) :
    index.bucket f = (index.exact.get? f).getD [] := by
  unfold bucket
  split
  · exact absurd rfl (hs _)
  · exact absurd rfl (hr _)
  · exact absurd rfl (hb _)
  · exact absurd rfl (ho _)
  · rfl

theorem bucket_mono {index index' : RuleFeatureIndex}
    (hexact : ∀ f, ∀ p ∈ (index.exact.get? f).getD [], p ∈ (index'.exact.get? f).getD [])
    (hstrings : ∀ p ∈ index.strings, p ∈ index'.strings)
    (hbytes : ∀ p ∈ index.bytes, p ∈ index'.bytes) (hos : ∀ p ∈ index.os, p ∈ index'.os)
    (f : Feature) (p : Nat) (hp : p ∈ index.bucket f) : p ∈ index'.bucket f := by
  unfold bucket at hp
  split at hp
  · exact hstrings p hp
  · exact hstrings p hp
  · exact hbytes p hp
  · exact hos p hp
  · next hs hr hb ho =>
    rw [bucket_exact index' hs hr hb ho]
    exact hexact _ p hp

theorem Le.refl (index : RuleFeatureIndex) : index.Le index := ⟨fun _ _ h => h, fun _ h => h⟩

theorem Le.trans {a b c : RuleFeatureIndex} (h : a.Le b) (h' : b.Le c) : a.Le c :=
  ⟨fun f p hp => h'.bucket f p (h.bucket f p hp), fun p hp => h'.always p (h.always p hp)⟩

theorem mem_pushPosition {l : List Nat} {p q : Nat} :
    q ∈ pushPosition l p ↔ q ∈ l ∨ q = p := by
  unfold pushPosition
  split
  · next h =>
    have hp : p ∈ l := List.mem_of_getLast? h
    exact ⟨Or.inl, fun h => h.elim id fun h => h ▸ hp⟩
  · rw [List.mem_append, List.mem_singleton]

/-- The exact entries after a position is pushed under `f`. -/
theorem mem_exact_push {index : RuleFeatureIndex} {f g : Feature} {p q : Nat} :
    q ∈ ((index.exact.upsert f fun o => pushPosition (o.getD []) p).get? g).getD [] ↔
      q ∈ (index.exact.get? g).getD [] ∨ ((f == g) = true ∧ q = p) := by
  rw [IndexMap.get?_upsert]
  by_cases h : (f == g) = true
  · rw [if_pos h, Option.getD_some, mem_pushPosition, IndexMap.get?_congr h]
    exact or_congr_right ⟨fun hq => ⟨h, hq⟩, And.right⟩
  · rw [if_neg h]
    exact (or_iff_left fun hq => h hq.1).symm

/-- Registering a position under an alternative files it in the alternative's bucket, unless the
    alternative is a key that no lookup finds. -/
theorem addAlternative_spec {p n : Nat} (hp : p < n) (index : RuleFeatureIndex) (f : Feature) :
    index.Le (addAlternative p index f) ∧
      ((f == f) = true → p ∈ (addAlternative p index f).bucket f) ∧
      (index.Below n → (addAlternative p index f).Below n) := by
  have hpush : ∀ l : List Nat, (∀ q ∈ l, q < n) → ∀ q ∈ pushPosition l p, q < n := by
    intro l hl q hq
    rcases mem_pushPosition.mp hq with hq | rfl
    · exact hl q hq
    · exact hp
  have hin : ∀ l : List Nat, p ∈ pushPosition l p := fun l => mem_pushPosition.mpr (Or.inr rfl)
  have hold : ∀ (l : List Nat), ∀ q ∈ l, q ∈ pushPosition l p := fun l q hq =>
    mem_pushPosition.mpr (Or.inl hq)
  have same : ∀ l : List Nat, ∀ q ∈ l, q ∈ l := fun _ _ h => h
  unfold addAlternative
  split
  · exact ⟨⟨bucket_mono (fun _ => same _) (hold _) (same _) (same _), same _⟩, fun _ => hin _,
      fun h => ⟨h.exact, hpush _ h.strings, h.bytes, h.os, h.always⟩⟩
  · exact ⟨⟨bucket_mono (fun _ => same _) (hold _) (same _) (same _), same _⟩, fun _ => hin _,
      fun h => ⟨h.exact, hpush _ h.strings, h.bytes, h.os, h.always⟩⟩
  · exact ⟨⟨bucket_mono (fun _ => same _) (same _) (hold _) (same _), same _⟩, fun _ => hin _,
      fun h => ⟨h.exact, h.strings, hpush _ h.bytes, h.os, h.always⟩⟩
  · exact ⟨⟨bucket_mono (fun _ => same _) (same _) (same _) (hold _), same _⟩, fun _ => hin _,
      fun h => ⟨h.exact, h.strings, h.bytes, hpush _ h.os, h.always⟩⟩
  · next f hs hr hb ho =>
    refine ⟨⟨bucket_mono (fun g q hq => mem_exact_push.mpr (Or.inl hq)) (same _) (same _) (same _),
      same _⟩, fun hf => ?_, fun h => ⟨fun g q hq => ?_, h.strings, h.bytes, h.os, h.always⟩⟩
    · rw [bucket_exact _ hs hr hb ho]
      exact mem_exact_push.mpr (Or.inr ⟨hf, rfl⟩)
    · rcases mem_exact_push.mp hq with hq | ⟨_, rfl⟩
      · exact h.exact g q hq
      · exact hp

theorem addAlternatives_spec {p n : Nat} (hp : p < n) (index : RuleFeatureIndex)
    (fs : List Feature) :
    index.Le (fs.foldl (addAlternative p) index) ∧
      (∀ f ∈ fs, (f == f) = true → p ∈ (fs.foldl (addAlternative p) index).bucket f) ∧
      (index.Below n → (fs.foldl (addAlternative p) index).Below n) := by
  induction fs generalizing index with
  | nil => exact ⟨.refl index, fun _ hf => absurd hf List.not_mem_nil, fun h => h⟩
  | cons f fs ih =>
    obtain ⟨hle, hf, hbelow⟩ := addAlternative_spec hp index f
    obtain ⟨hle', hfs, hbelow'⟩ := ih (addAlternative p index f)
    refine ⟨hle.trans hle', fun g hg hgg => ?_, fun h => hbelow' (hbelow h)⟩
    rcases List.mem_cons.mp hg with rfl | hg
    · exact hle'.bucket g p (hf hgg)
    · exact hfs g hg hgg

/-- Where a rule at position `p` has to be found. -/
def Files (index : RuleFeatureIndex) (rule : Rule) (p : Nat) : Prop :=
  match requiredFeatures rule.body with
  | none => p ∈ index.always
  | some r => ∀ f ∈ r.alternatives, (f == f) = true → p ∈ index.bucket f

theorem Files.mono {index index' : RuleFeatureIndex} (h : index.Le index') {rule : Rule} {p : Nat}
    (hf : index.Files rule p) : index'.Files rule p := by
  unfold Files at hf ⊢
  split at hf
  · exact h.always p hf
  · exact fun f hfm hff => h.bucket f p (hf f hfm hff)

theorem addRule_spec {rule : Rule} {p n : Nat} (hp : p < n) (index : RuleFeatureIndex) :
    index.Le (addRule index (rule, p)) ∧ (addRule index (rule, p)).Files rule p ∧
      (index.Below n → (addRule index (rule, p)).Below n) := by
  unfold addRule Files
  cases requiredFeatures rule.body with
  | none =>
    have same : ∀ l : List Nat, ∀ q ∈ l, q ∈ l := fun _ _ h => h
    refine ⟨⟨bucket_mono (fun _ => same _) (same _) (same _) (same _),
      fun q hq => List.mem_append_left _ hq⟩,
      List.mem_append_right _ (List.mem_singleton.mpr rfl), fun h =>
        ⟨h.exact, h.strings, h.bytes, h.os, fun q hq => ?_⟩⟩
    rcases List.mem_append.mp hq with hq | hq
    · exact h.always q hq
    · rw [List.mem_singleton.mp hq]
      exact hp
  | some r => exact addAlternatives_spec hp index r.alternatives

/-- The index files every rule at its position, and holds no other position. -/
theorem ofRules_spec (rules : List Rule) :
    (∀ p rule, rules[p]? = some rule → (ofRules rules).Files rule p) ∧
      (ofRules rules).Below rules.length := by
  have hfold : ∀ (entries : List (Rule × Nat)) (n : Nat) (index : RuleFeatureIndex),
      (∀ e ∈ entries, e.2 < n) → index.Below n →
      index.Le (entries.foldl addRule index) ∧
        (∀ e ∈ entries, (entries.foldl addRule index).Files e.1 e.2) ∧
        (entries.foldl addRule index).Below n := by
    intro entries n
    induction entries with
    | nil => exact fun index _ hb => ⟨.refl index, fun _ he => absurd he List.not_mem_nil, hb⟩
    | cons e entries ih =>
      intro index hlt hb
      have hadd : index.Le (addRule index e) ∧ (addRule index e).Files e.1 e.2 ∧
          (index.Below n → (addRule index e).Below n) :=
        addRule_spec (hlt e List.mem_cons_self) index
      obtain ⟨hle, hf, hbelow⟩ := hadd
      obtain ⟨hle', hfs, hb'⟩ := ih (addRule index e)
        (fun e' he' => hlt e' (List.mem_cons_of_mem _ he')) (hbelow hb)
      refine ⟨hle.trans hle', fun e' he' => ?_, hb'⟩
      rcases List.mem_cons.mp he' with rfl | he'
      · exact hf.mono hle'
      · exact hfs e' he'
  have hlt : ∀ e ∈ rules.zipIdx, e.2 < rules.length := fun e he => by
    obtain ⟨_, hlt, _⟩ := List.mem_zipIdx he
    omega
  have hempty : empty.Below rules.length :=
    ⟨fun _ _ h => (nomatch h), fun _ h => (nomatch h), fun _ h => (nomatch h),
      fun _ h => (nomatch h), fun _ h => (nomatch h)⟩
  obtain ⟨_, hfiles, hbelow⟩ := hfold rules.zipIdx rules.length empty hlt hempty
  refine ⟨fun p rule hr => hfiles (rule, p) ?_, hbelow⟩
  exact List.mk_mem_zipIdx_iff_getElem?.mpr hr

/-! ## Candidates -/

theorem mem_insertAll_foldl {α : Type} {f : α → List Nat} {l : List α} {s : OrdSet Nat} {q : Nat} :
    q ∈ l.foldl (fun s a => s.insertAll (f a)) s ↔ q ∈ s ∨ ∃ a ∈ l, q ∈ f a := by
  induction l generalizing s with
  | nil => simp
  | cons a l ih => simp [ih, or_assoc]

theorem mem_candidates {index : RuleFeatureIndex} {fs : FeatureSet} {q : Nat} :
    q ∈ index.candidates fs ↔ q ∈ index.always ∨
      (∃ k ∈ fs.keys, q ∈ (index.exact.get? k).getD []) ∨
      (fs.keys.any Feature.isString = true ∧ q ∈ index.strings) ∨
      (fs.keys.any Feature.isBytes = true ∧ q ∈ index.bytes) ∨
      (fs.keys.any Feature.isOs = true ∧ q ∈ index.os) := by
  have hif : ∀ (b : Bool) (s : OrdSet Nat) (l : List Nat),
      q ∈ (if b then s.insertAll l else s) ↔ q ∈ s ∨ (b = true ∧ q ∈ l) := by
    intro b s l
    cases b <;> simp
  simp only [candidates, List.foldl_cons, List.foldl_nil, hif, mem_insertAll_foldl,
    OrdSet.mem_ofList, or_assoc]

/-- Every candidate is the position of a rule. -/
theorem Below.candidates {index : RuleFeatureIndex} {n : Nat} (h : index.Below n)
    {fs : FeatureSet} {q : Nat} (hq : q ∈ index.candidates fs) : q < n := by
  rcases mem_candidates.mp hq with hq | ⟨k, _, hq⟩ | ⟨_, hq⟩ | ⟨_, hq⟩ | ⟨_, hq⟩
  · exact h.always q hq
  · exact h.exact k q hq
  · exact h.strings q hq
  · exact h.bytes q hq
  · exact h.os q hq

/-- The positions in the bucket of an alternative that fires are candidates. -/
theorem candidates_of_fires {index : RuleFeatureIndex} {fs : FeatureSet} {f : Feature} {q : Nat}
    (hf : Fires fs f = true) (hq : q ∈ index.bucket f) : q ∈ index.candidates fs := by
  refine mem_candidates.mpr (Or.inr ?_)
  unfold Fires at hf
  split at hf
  · exact Or.inr (Or.inl ⟨hf, hq⟩)
  · exact Or.inr (Or.inl ⟨hf, hq⟩)
  · exact Or.inr (Or.inr (Or.inl ⟨hf, hq⟩))
  · exact Or.inr (Or.inr (Or.inr ⟨hf, hq⟩))
  · next hs hr hb ho =>
    rw [bucket_exact index hs hr hb ho] at hq
    obtain ⟨k, hk, he⟩ := IndexMap.containsKey_iff.mp hf
    exact Or.inl ⟨k, hk, by rwa [IndexMap.get?_congr he]⟩

end RuleFeatureIndex

/-! ## The matcher -/

/-- One turn of the plain walk: a rule that holds is published, with its full evidence. -/
def matchRule [RegexBackend] (addr : Address) (acc : FeatureSet × MatchResults) (rule : Rule) :
    Except EngineError (FeatureSet × MatchResults) := do
  if ← evaluateBoolean acc.1 rule.body then
    let full ← evaluate acc.1 false rule.body
    return (indexRuleMatches acc.1 rule (.singleton addr),
      acc.2.upsert rule.name fun o => o.getD [] ++ [(addr, full)])
  else return acc

/-- The plain linear evaluator: every rule of the scope, in order. -/
def MatchingRuleSet.matchLinear [RegexBackend] (set : MatchingRuleSet) (scope : Scope)
    (features : FeatureSet) (addr : Address) : Except EngineError (FeatureSet × MatchResults) :=
  (set.rulesForScope scope).foldlM (matchRule addr) (features, ∅)

/-- Nothing a body requires fires, so the rule need not be looked at. -/
def Idle (fs : FeatureSet) (rule : Rule) : Prop :=
  ∃ r, requiredFeatures rule.body = some r ∧ ∀ f ∈ r.alternatives, Fires fs f = false

/-- A body the engine can evaluate, or a subscope, which is never skipped. -/
def Rule.Ready (rule : Rule) : Prop :=
  rule.body.Evaluable ∨ rule.body.stmt.isSubscope = true

section

variable [RegexBackend]

theorem matchRule_idle {addr : Address} {acc : FeatureSet × MatchResults} {rule : Rule}
    (hr : rule.Ready) (h : Idle acc.1 rule) : matchRule addr acc rule = .ok acc := by
  obtain ⟨r, hreq, hfires⟩ := h
  have heval : rule.body.Evaluable := by
    refine hr.resolve_right fun hs => ?_
    obtain ⟨s, b, d, hbody⟩ := exists_subscope hs
    rw [hbody] at hreq
    cases hreq
  unfold matchRule
  rw [evaluateBoolean_eq heval, requiredFeatures_sound hreq hfires]
  rfl

/-- Idle rules are skipped. -/
theorem matchRules_idle {addr : Address} {acc : FeatureSet × MatchResults} {rules : List Rule}
    (hr : ∀ r ∈ rules, r.Ready) (h : ∀ r ∈ rules, Idle acc.1 r) :
    rules.foldlM (matchRule addr) acc = .ok acc := by
  induction rules with
  | nil => rfl
  | cons rule rules ih =>
    rw [List.foldlM_cons, matchRule_idle (hr rule List.mem_cons_self) (h rule List.mem_cons_self)]
    exact ih (fun r hm => hr r (List.mem_cons_of_mem _ hm))
      fun r hm => h r (List.mem_cons_of_mem _ hm)

end

/-- What fires after a match is published fired before, or is one of the new keys. -/
theorem fires_publish {fs : FeatureSet} {values : List String} {locs : OrdSet Address}
    {f : Feature} (h : Fires (fs.publish values locs) f = true) :
    Fires fs f = true ∨
      ∃ v, f = .matchedRule v ∧ f ∈ (fs.publish values locs).keys.drop fs.len := by
  obtain ⟨new, hkeys, hnew⟩ := fs.keys_publish values locs
  have hdrop : (fs.publish values locs).keys.drop fs.len = new := by
    rw [hkeys, IndexMap.len_eq, List.drop_left]
  have hany : ∀ p : Feature → Bool, (∀ v, p (.matchedRule v) = false) →
      (fs.publish values locs).keys.any p = fs.keys.any p := by
    intro p hp
    have hfalse : new.any p = false := List.any_eq_false.mpr fun k hk => by
      obtain ⟨v, _, rfl⟩ := hnew k hk
      rw [hp v]
      exact Bool.false_ne_true
    rw [hkeys, List.any_append, hfalse, Bool.or_false]
  unfold Fires at h
  split at h
  · exact Or.inl ((hany _ fun _ => rfl).symm.trans h)
  · exact Or.inl ((hany _ fun _ => rfl).symm.trans h)
  · exact Or.inl ((hany _ fun _ => rfl).symm.trans h)
  · exact Or.inl ((hany _ fun _ => rfl).symm.trans h)
  · obtain ⟨k, hk, he⟩ := IndexMap.containsKey_iff.mp h
    rw [hkeys] at hk
    rcases List.mem_append.mp hk with hk | hk
    · exact Or.inl (fires_of_containsKey (IndexMap.containsKey_iff.mpr ⟨k, hk, he⟩))
    · obtain ⟨v, _, rfl⟩ := hnew k hk
      have hf : _ = Feature.matchedRule v := Feature.matchedRule_beq_iff.mp he
      exact Or.inr ⟨v, hf, by rw [hdrop, hf]; exact hk⟩

/-! ## The loop -/

/-- The rules the positions of the index stand for. -/
structure Indexed (index : RuleFeatureIndex) (rules : List Rule) : Prop where
  files : ∀ p rule, rules[p]? = some rule → index.Files rule p
  below : index.Below rules.length
  ready : ∀ r ∈ rules, r.Ready

/-- The invariant of the loop: the candidates are positions from `lo` on, and what is not a
    candidate from there on is idle. -/
structure Covers (rules : List Rule) (lo : Nat) (candidates : OrdSet Nat)
    (features : FeatureSet) : Prop where
  bounds : ∀ q ∈ candidates, lo ≤ q ∧ q < rules.length
  idle : ∀ q rule, lo ≤ q → rules[q]? = some rule → q ∉ candidates → Idle features rule

/-- The candidates of a feature set cover it. -/
theorem Indexed.covers {index : RuleFeatureIndex} {rules : List Rule} (h : Indexed index rules)
    (features : FeatureSet) : Covers rules 0 (index.candidates features) features where
  bounds q hq := ⟨Nat.zero_le q, h.below.candidates hq⟩
  idle q rule _ hr hq := by
    have hfiles := h.files q rule hr
    unfold RuleFeatureIndex.Files at hfiles
    split at hfiles
    · exact absurd (RuleFeatureIndex.mem_candidates.mpr (Or.inl hfiles)) hq
    · next r hreq =>
      refine ⟨r, hreq, fun f hf => ?_⟩
      by_contra hfires
      have hfires : Fires features f = true := eq_true_of_ne_false hfires
      exact hq (RuleFeatureIndex.candidates_of_fires hfires (hfiles f hf (beq_self_of_fires hfires)))

/-- Skipping to the next candidate, what stands before it is idle. -/
theorem Covers.skip [RegexBackend] {rules : List Rule} {lo p : Nat} {candidates rest : OrdSet Nat}
    {features : FeatureSet} {results : MatchResults} {addr : Address} {rule : Rule}
    (hready : ∀ r ∈ rules, r.Ready) (h : Covers rules lo candidates features)
    (hpop : candidates.popFirst = some (p, rest)) (hrule : rules[p]? = some rule) :
    (rules.drop lo).foldlM (matchRule addr) (features, results) =
      (rule :: rules.drop (p + 1)).foldlM (matchRule addr) (features, results) := by
  obtain ⟨hmem, hleast⟩ := OrdSet.popFirst_some hpop
  have hlo : lo ≤ p := (h.bounds p ((hmem p).mpr (Or.inl rfl))).1
  have hdrop : rules.drop p = rule :: rules.drop (p + 1) := by
    obtain ⟨hlt, hget⟩ := List.getElem?_eq_some_iff.mp hrule
    rw [List.drop_eq_getElem_cons hlt, hget]
  have hsplit : rules.drop lo = (rules.drop lo).take (p - lo) ++ rules.drop p := by
    have htake := (List.take_append_drop (p - lo) (rules.drop lo)).symm
    rwa [List.drop_drop, Nat.add_sub_cancel' hlo] at htake
  have hidle : ∀ r ∈ (rules.drop lo).take (p - lo), Idle features r := by
    intro r hr
    obtain ⟨i, hi⟩ := List.mem_iff_getElem?.mp hr
    rw [List.getElem?_take, List.getElem?_drop] at hi
    split at hi
    · next hlt =>
      refine h.idle (lo + i) r (by omega) hi fun hq => ?_
      rcases (hmem (lo + i)).mp hq with he | hq
      · omega
      · have hgt : p < lo + i := hleast (lo + i) hq
        omega
    · cases hi
  have hskip : ((rules.drop lo).take (p - lo)).foldlM (matchRule addr) (features, results) =
      .ok (features, results) :=
    matchRules_idle (fun r hr => hready r (List.mem_of_mem_drop (List.mem_of_mem_take hr))) hidle
  rw [hsplit, List.foldlM_append, hskip, hdrop]
  rfl

/-- A popped position leaves a cover of what stands after it. -/
theorem Covers.pop {rules : List Rule} {lo p : Nat} {candidates rest : OrdSet Nat}
    {features : FeatureSet} (h : Covers rules lo candidates features)
    (hpop : candidates.popFirst = some (p, rest)) : Covers rules (p + 1) rest features := by
  obtain ⟨hmem, hleast⟩ := OrdSet.popFirst_some hpop
  have hlo : lo ≤ p := (h.bounds p ((hmem p).mpr (Or.inl rfl))).1
  refine ⟨fun q hq => ⟨hleast q hq, (h.bounds q ((hmem q).mpr (Or.inr hq))).2⟩,
    fun q rule hle hr hq => ?_⟩
  refine h.idle q rule (by omega) hr fun hc => ?_
  rcases (hmem q).mp hc with he | hc
  · omega
  · exact hq hc

/-- Publishing a match at `p` keeps a cover when the positions after `p` that are filed under
    the new keys become candidates. -/
theorem Covers.publish {index : RuleFeatureIndex} {rules : List Rule} (hindex : Indexed index rules)
    {p : Nat} {candidates : OrdSet Nat} {features : FeatureSet}
    (h : Covers rules (p + 1) candidates features) (values : List String)
    (locs : OrdSet Address) :
    Covers rules (p + 1)
      (((features.publish values locs).keys.drop features.len).foldl (fun candidates feature =>
        candidates.insertAll
          (((index.exact.get? feature).getD []).filter fun i => decide (p < i))) candidates)
      (features.publish values locs) := by
  refine ⟨fun q hq => ?_, fun q rule hle hr hq => ?_⟩
  · rcases RuleFeatureIndex.mem_insertAll_foldl.mp hq with hq | ⟨k, _, hq⟩
    · exact h.bounds q hq
    · obtain ⟨hq, hlt⟩ := List.mem_filter.mp hq
      exact ⟨of_decide_eq_true hlt, hindex.below.exact k q hq⟩
  · have hold : q ∉ candidates := fun hc =>
      hq (RuleFeatureIndex.mem_insertAll_foldl.mpr (Or.inl hc))
    obtain ⟨r, hreq, hfires⟩ := h.idle q rule hle hr hold
    refine ⟨r, hreq, fun f hf => ?_⟩
    by_contra hfire
    rcases fires_publish (eq_true_of_ne_false hfire) with hfire | ⟨v, rfl, hnew⟩
    · exact Bool.false_ne_true ((hfires f hf).symm.trans hfire)
    · have hfile := hindex.files q rule hr
      rw [RuleFeatureIndex.Files, hreq] at hfile
      have hbucket : q ∈ index.bucket (.matchedRule v) := hfile _ hf (Feature.beq_self rfl)
      exact hq (RuleFeatureIndex.mem_insertAll_foldl.mpr (Or.inr ⟨_, hnew,
        List.mem_filter.mpr ⟨hbucket, decide_eq_true hle⟩⟩))

/-- The loop over the candidates is the plain walk over the rules from `lo` on. -/
theorem matchLoop_eq [RegexBackend] {set : MatchingRuleSet} {index : RuleFeatureIndex}
    {names : List String} {rules : List Rule} {addr : Address} (hindex : Indexed index rules)
    (hnames : ∀ p : Nat, names[p]?.bind set.rules.get? = rules[p]?) {fuel lo : Nat}
    {candidates : OrdSet Nat} {features : FeatureSet} {results : MatchResults}
    (hfuel : rules.length - lo < fuel) (h : Covers rules lo candidates features) :
    set.matchLoop index names addr fuel candidates features results =
      (rules.drop lo).foldlM (matchRule addr) (features, results) := by
  induction fuel generalizing lo candidates features results with
  | zero => exact absurd hfuel (Nat.not_lt_zero _)
  | succ fuel ih =>
    unfold MatchingRuleSet.matchLoop
    split
    · next hpop =>
      have hnone : ∀ q, q ∉ candidates := fun q => by
        rw [OrdSet.popFirst_none hpop]
        exact OrdSet.not_mem_empty q
      refine (matchRules_idle (fun r hr => hindex.ready r (List.mem_of_mem_drop hr))
        fun r hr => ?_).symm
      obtain ⟨i, hi⟩ := List.mem_iff_getElem?.mp hr
      rw [List.getElem?_drop] at hi
      exact h.idle (lo + i) r (by omega) hi (hnone _)
    · next p rest hpop =>
      have hbounds := h.bounds p (((OrdSet.popFirst_some hpop).1 p).mpr (Or.inl rfl))
      have hrule : rules[p]? = some rules[p] := List.getElem?_eq_getElem hbounds.2
      have hfuel : rules.length - (p + 1) < fuel := by omega
      rw [hnames, hrule, h.skip hindex.ready hpop hrule, List.foldlM_cons, matchRule]
      simp only
      cases evaluateBoolean features rules[p].body with
      | error e => rfl
      | ok holds =>
        cases holds with
        | false => exact ih hfuel (h.pop hpop)
        | true =>
          cases hfull : evaluate features false rules[p].body with
          | error e => rfl
          | ok full =>
            have hcovers := (h.pop hpop).publish hindex rules[p].published (.singleton addr)
            rw [← indexRuleMatches_eq] at hcovers
            exact ih hfuel hcovers

/-! ## The matcher and the plain walk -/

/-- Every rule of an expanded list is ready to be matched. -/
theorem ready_of_expandAndExtract [ComDatabase] {rules es : List Rule}
    (h : expandAndExtract rules = .ok es) : ∀ e ∈ es, e.Ready := by
  intro e he
  obtain ⟨r, _, hfin⟩ := ((expandAndExtract_spec h).1 e).mp he
  rcases hfin.body with ⟨_, hsub⟩ | ⟨_, heval⟩
  · exact Or.inr hsub
  · exact Or.inl heval

theorem indexed_ofRules {rules : List Rule} (h : ∀ r ∈ rules, r.Ready) :
    Indexed (RuleFeatureIndex.ofRules rules) rules where
  files := (RuleFeatureIndex.ofRules_spec rules).1
  below := (RuleFeatureIndex.ofRules_spec rules).2
  ready := h

/-- On an expanded list the candidates leave nothing out. -/
theorem MatchingRuleSet.matchScope_ofExpanded [ComDatabase] [RegexBackend] {rules es : List Rule}
    (hes : expandAndExtract rules = .ok es) (scope : Scope) (features : FeatureSet)
    (addr : Address) :
    (ofExpanded es).matchScope scope features addr =
      ((ofExpanded es).rulesForScope scope).foldlM (matchRule addr) (features, ∅) := by
  have hready : ∀ r ∈ (ofExpanded es).rulesForScope scope, r.Ready :=
    fun r hr => ready_of_expandAndExtract hes r (mem_rulesForScope_ofExpanded hr).1
  have hpos := getElem?_rulesForScope_ofExpanded es scope
  unfold matchScope
  rw [indexes_ofExpanded]
  by_cases hscope : scope ∈ allScopes
  · rw [if_pos hscope]
    have hlen : ((ofExpanded es).rulesForScope scope).length ≤
        (((ofExpanded es).rulesByScope.get? scope).getD []).length := List.length_filterMap_le _ _
    have hcovers := (indexed_ofRules hready).covers features
    exact matchLoop_eq (indexed_ofRules hready) hpos (by omega) hcovers
  · rw [if_neg hscope]
    have hnone : (ofExpanded es).rulesForScope scope = [] :=
      List.eq_nil_iff_forall_not_mem.mpr fun r hr =>
        hscope (mem_rulesForScope_ofExpanded hr).2.2
    rw [hnone]
    rfl

/-- The indexed matcher returns what the plain walk over the rules of the scope returns: the
    same features in the same order, the same matches, the same error. -/
theorem matchScope_eq_matchLinear [ComDatabase] [RegexBackend] {rules : List Rule}
    {set : MatchingRuleSet} (h : MatchingRuleSet.new rules = .ok set) (scope : Scope)
    (features : FeatureSet) (addr : Address) :
    set.matchScope scope features addr = set.matchLinear scope features addr := by
  obtain ⟨_, es, hes, rfl⟩ := MatchingRuleSet.new_ok h
  exact MatchingRuleSet.matchScope_ofExpanded hes scope features addr

/-- Two rules, one of which asks for the other. -/
def openAndCreate : List Rule :=
  [.minimal "open" none ⟨some .function, none⟩ ⟨.leaf (.api "CreateFile"), none⟩,
    .minimal "create" none ⟨some .function, none⟩ ⟨.leaf (.matchedRule "open"), none⟩]

/-- What a function with a call of `CreateFile` has. -/
def fileCreated : FeatureSet := FeatureSet.insert ∅ (.api "CreateFile") (.absolute 0x1004)

/-- Both rules match. -/
theorem matchScope_eq_matchLinear_openAndCreate :
    ∃ set, @MatchingRuleSet.new .empty openAndCreate = .ok set ∧
      @MatchingRuleSet.matchScope .empty set .function fileCreated (.absolute 0x1000) =
        @MatchingRuleSet.matchLinear .empty set .function fileCreated (.absolute 0x1000) ∧
      (@MatchingRuleSet.matchScope .empty set .function fileCreated (.absolute 0x1000)).map
        (fun r => ["open", "create"].all fun name => (r.2.get? name).isSome) = .ok true := by
  refine ⟨_, rfl, ?_, by rfl⟩
  exact @matchScope_eq_matchLinear .empty .empty openAndCreate _ rfl .function fileCreated
    (.absolute 0x1000)

end CapaX
