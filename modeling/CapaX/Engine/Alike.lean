import CapaX.Engine.Evidence
import Mathlib.Data.List.Dedup

/-
  Feature sets that no body can tell apart: the same locations of every feature, and the same
  entries for the scanning leaves, in one order. Only the place of the match features among the
  others may differ. Insertions, merges and the publication of matches keep sets alike, and alike
  sets have the same number of features (`Alike.len_eq`) and give every body the same outcome
  (`Alike.evaluateBoolean`, `Alike.evaluate`).
-/

namespace CapaX

open Collections

theorem Feature.isMatchedRule_congr {f g : Feature} (h : (f == g) = true) :
    f.isMatchedRule = g.isMatchedRule := by
  rcases Feature.beq_iff.mp h with ⟨x, y, rfl, rfl, _⟩ | ⟨i, x, y, rfl, rfl, _⟩ |
    ⟨x, y, rfl, rfl, _⟩ | ⟨_, rfl⟩
  · rfl
  · rfl
  · rfl
  · rfl

theorem Feature.eq_matchedRule {f : Feature} (h : f.isMatchedRule = true) :
    ∃ v, f = .matchedRule v := by
  cases f with
  | matchedRule v => exact ⟨v, rfl⟩
  | _ => exact Bool.noConfusion h

namespace FeatureSet

/-! ## What the scanning leaves see of an operation -/

theorem filter_upsertList {p : Feature → Bool} (hp : ∀ f g, (f == g) = true → p f = p g)
    {f : Feature} {u : Option (OrdSet Address) → OrdSet Address}
    {l : List (Feature × OrdSet Address)} :
    (IndexMap.upsertList f u l).filter (fun e => p e.1) =
      if p f then IndexMap.upsertList f u (l.filter fun e => p e.1)
      else l.filter fun e => p e.1 := by
  induction l with
  | nil =>
    rw [IndexMap.upsertList, List.filter_singleton]
    cases p f with
    | false => rfl
    | true => rfl
  | cons e l ih =>
    rw [IndexMap.upsertList]
    by_cases he : (e.1 == f) = true
    · rw [if_pos he, List.filter_cons, List.filter_cons, hp e.1 f he]
      cases p f with
      | false => rfl
      | true =>
        rw [if_pos rfl, if_pos rfl, if_pos rfl, IndexMap.upsertList, if_pos he]
    · rw [if_neg he, List.filter_cons, List.filter_cons, ih]
      cases p e.1 with
      | false => rfl
      | true =>
        rw [if_pos rfl, if_pos rfl, IndexMap.upsertList, if_neg he]
        cases p f with
        | false => rfl
        | true => rfl

theorem scanned_upsert {fs : FeatureSet} {f : Feature}
    {u : Option (OrdSet Address) → OrdSet Address} :
    scanned (fs.upsert f u) =
      if !f.isMatchedRule then IndexMap.upsertList f u fs.scanned else fs.scanned :=
  filter_upsertList (p := fun g => !g.isMatchedRule)
    fun _ _ h => congrArg _ (Feature.isMatchedRule_congr h)

/-- A merge appends to what is scanned only what the other set has to scan. -/
theorem scanned_mergeOwned (fs other : FeatureSet) :
    (fs.mergeOwned other).scanned = other.scanned.foldl (fun l e =>
      IndexMap.upsertList e.1 (fun o => IndexMap.combine (· ∪ ·) o e.2) l) fs.scanned := by
  obtain ⟨es, hes⟩ := other
  show scanned (es.foldl (fun acc e => acc.upsert e.1 fun o => IndexMap.combine (· ∪ ·) o e.2) fs) =
    (es.filter fun e => !e.1.isMatchedRule).foldl _ fs.scanned
  clear hes
  induction es generalizing fs with
  | nil => rfl
  | cons e es ih =>
    rw [List.foldl_cons, ih, scanned_upsert, List.filter_cons]
    cases e.1.isMatchedRule with
    | false => rfl
    | true => rfl

/-! ## Feature sets alike -/

/-- The same lookups, and the same entries to scan. -/
abbrev Alike (fs fs' : FeatureSet) : Prop := fs.Agree fs' fun _ => True

namespace Alike

variable {fs fs' : FeatureSet}

theorem refl (fs : FeatureSet) : fs.Alike fs := ⟨fun _ _ => rfl, rfl⟩

theorem get? (h : fs.Alike fs') (f : Feature) : fs.get? f = fs'.get? f :=
  h.lookup f fun _ _ => trivial

theorem upsert (h : fs.Alike fs') (f : Feature) (u : Option (OrdSet Address) → OrdSet Address) :
    Alike (fs.upsert f u) (fs'.upsert f u) := by
  refine ⟨fun g _ => ?_, ?_⟩
  · rw [IndexMap.get?_upsert, IndexMap.get?_upsert, h.get? f, h.get? g]
  · rw [scanned_upsert, scanned_upsert, h.scanned]

theorem mergeOwned {other other' : FeatureSet} (h : fs.Alike fs') (ho : other.Alike other') :
    (fs.mergeOwned other).Alike (fs'.mergeOwned other') := by
  refine ⟨fun f _ => ?_, ?_⟩
  · rw [get?_mergeOwned, get?_mergeOwned, h.get? f, ho.get? f]
  · rw [scanned_mergeOwned, scanned_mergeOwned, h.scanned, ho.scanned]

/-- The entries a set has beside those that are scanned. -/
theorem len_eq_add (fs : FeatureSet) :
    fs.len = fs.scanned.length + (fs.keys.filter Feature.isMatchedRule).length := by
  have h := List.length_eq_countP_add_countP (fun e : Feature × OrdSet Address =>
    !e.1.isMatchedRule) (l := fs.entries)
  rw [IndexMap.keys, List.filter_map, List.length_map, IndexMap.len, h, scanned,
    List.countP_eq_length_filter, List.countP_eq_length_filter]
  have hrest : fs.entries.filter (fun e => decide ¬ (!e.1.isMatchedRule) = true) =
      fs.entries.filter (Feature.isMatchedRule ∘ fun e => e.1) :=
    List.filter_congr fun e _ => by simp
  rw [hrest]

theorem nodup_matchKeys (fs : FeatureSet) : (fs.keys.filter Feature.isMatchedRule).Nodup := by
  have hd : fs.keys.Pairwise fun a b => (a == b) = false := List.pairwise_map.mpr fs.distinct
  refine (hd.filter _).imp_of_mem fun {a b} ha _ hab he => ?_
  obtain ⟨v, rfl⟩ := Feature.eq_matchedRule (List.mem_filter.mp ha).2
  rw [← he, Feature.beq_self rfl] at hab
  exact Bool.noConfusion hab

theorem mem_matchKeys {fs : FeatureSet} {f : Feature} :
    f ∈ fs.keys.filter Feature.isMatchedRule ↔
      f.isMatchedRule = true ∧ (fs.get? f).isSome = true := by
  rw [List.mem_filter, and_comm, ← IndexMap.containsKey_eq_isSome, IndexMap.containsKey_iff]
  refine and_congr_right fun hf => ?_
  obtain ⟨v, rfl⟩ := Feature.eq_matchedRule hf
  constructor
  · exact fun h => ⟨_, h, Feature.beq_self rfl⟩
  · intro ⟨k, hk, he⟩
    rwa [← Feature.matchedRule_beq_iff.mp (BEq.symm he)]

/-- Alike sets hold the same number of features. -/
theorem len_eq (h : fs.Alike fs') : fs.len = fs'.len := by
  have hperm : (fs.keys.filter Feature.isMatchedRule).Perm
      (fs'.keys.filter Feature.isMatchedRule) := by
    rw [List.perm_ext_iff_of_nodup (nodup_matchKeys fs) (nodup_matchKeys fs')]
    intro f
    rw [mem_matchKeys, mem_matchKeys, h.get? f]
  rw [len_eq_add, len_eq_add, h.scanned, hperm.length_eq]

end Alike

/-! ## Publishing many matches -/

/-- Insert locations under match values, one publication after the other. -/
def publishAll (fs : FeatureSet) (ps : List (List String × OrdSet Address)) : FeatureSet :=
  ps.foldl (fun fs p => fs.publish p.1 p.2) fs

theorem scanned_publishAll {fs : FeatureSet} {ps : List (List String × OrdSet Address)} :
    (fs.publishAll ps).scanned = fs.scanned := by
  induction ps generalizing fs with
  | nil => rfl
  | cons p ps ih => exact ih.trans scanned_publish

theorem get?_publishAll_of_not {fs : FeatureSet} {ps : List (List String × OrdSet Address)}
    {f : Feature} (h : ∀ p ∈ ps, ∀ v ∈ p.1, f ≠ .matchedRule v) :
    (fs.publishAll ps).get? f = fs.get? f := by
  induction ps generalizing fs with
  | nil => rfl
  | cons p ps ih =>
    have hp := h p List.mem_cons_self
    exact (ih fun q hq => h q (List.mem_cons_of_mem _ hq)).trans (get?_publish_of_not hp)

/-- The locations published under a value: those it had, and those of the publications. -/
theorem get?_publishAll {fs : FeatureSet} {ps : List (List String × OrdSet Address)} {v : String} :
    (fs.publishAll ps).get? (.matchedRule v) =
      if ∃ p ∈ ps, v ∈ p.1 then
        some ((ps.filter fun p => decide (v ∈ p.1)).foldl (fun locs p => locs ∪ p.2)
          ((fs.get? (.matchedRule v)).getD ∅))
      else fs.get? (.matchedRule v) := by
  induction ps generalizing fs with
  | nil => exact (if_neg fun ⟨_, hp, _⟩ => List.not_mem_nil hp).symm
  | cons p ps ih =>
    have hstep : (fs.publishAll (p :: ps)).get? (.matchedRule v) =
        ((fs.publish p.1 p.2).publishAll ps).get? (.matchedRule v) := rfl
    rw [hstep, ih]
    by_cases hv : v ∈ p.1
    · rw [if_pos (c := ∃ q ∈ p :: ps, v ∈ q.1) ⟨p, List.mem_cons_self, hv⟩,
        get?_publish_of_mem hv, List.filter_cons, if_pos (decide_eq_true hv), List.foldl_cons]
      by_cases hps : ∃ q ∈ ps, v ∈ q.1
      · rw [if_pos hps]
        rfl
      · rw [if_neg hps]
        have hnil : ps.filter (fun q => decide (v ∈ q.1)) = [] := by
          rw [List.filter_eq_nil_iff]
          exact fun q hq hd => hps ⟨q, hq, of_decide_eq_true hd⟩
        rw [hnil]
        rfl
    · have hnot : (fs.publish p.1 p.2).get? (.matchedRule v) = fs.get? (.matchedRule v) :=
        get?_publish_of_not fun w hw he => hv (Feature.matchedRule.inj he ▸ hw)
      have hiff : (∃ q ∈ p :: ps, v ∈ q.1) ↔ ∃ q ∈ ps, v ∈ q.1 := by
        constructor
        · intro ⟨q, hq, hqv⟩
          rcases List.mem_cons.mp hq with rfl | hq
          · exact absurd hqv hv
          · exact ⟨q, hq, hqv⟩
        · exact fun ⟨q, hq, hqv⟩ => ⟨q, List.mem_cons_of_mem _ hq, hqv⟩
      rw [hnot, List.filter_cons, if_neg (fun h => hv (of_decide_eq_true h))]
      exact if_congr hiff.symm rfl rfl

theorem mem_foldl_union {α : Type} {ps : List (α × OrdSet Address)} {locs : OrdSet Address}
    {a : Address} :
    a ∈ ps.foldl (fun locs p => locs ∪ p.2) locs ↔ a ∈ locs ∨ ∃ p ∈ ps, a ∈ p.2 := by
  induction ps generalizing locs with
  | nil => exact ⟨Or.inl, fun h => h.resolve_right fun ⟨_, hp, _⟩ => List.not_mem_nil hp⟩
  | cons p ps ih =>
    rw [List.foldl_cons, ih, OrdSet.mem_union, List.exists_mem_cons_iff, or_assoc]

/-- What is published depends on the publications, not on their order or number. -/
theorem Alike.publishAll {fs fs' : FeatureSet} {ps ps' : List (List String × OrdSet Address)}
    (h : fs.Alike fs') (hp : ∀ p, p ∈ ps ↔ p ∈ ps') :
    (fs.publishAll ps).Alike (fs'.publishAll ps') := by
  refine ⟨fun f _ => ?_, ?_⟩
  · by_cases hf : f.isMatchedRule = true
    · obtain ⟨v, rfl⟩ := Feature.eq_matchedRule hf
      have hiff : (∃ p ∈ ps, v ∈ p.1) ↔ ∃ p ∈ ps', v ∈ p.1 :=
        exists_congr fun p => and_congr_left fun _ => hp p
      rw [get?_publishAll, get?_publishAll, h.get?]
      refine if_congr hiff (congrArg some (OrdSet.ext_mem fun a => ?_)) rfl
      rw [mem_foldl_union, mem_foldl_union]
      refine or_congr_right (exists_congr fun p => and_congr_left fun _ => ?_)
      rw [List.mem_filter, List.mem_filter, hp]
    · have hnot : ∀ {qs : List (List String × OrdSet Address)}, ∀ p ∈ qs, ∀ v ∈ p.1,
          f ≠ .matchedRule v := by
        intro qs p _ v _ he
        rw [he] at hf
        exact hf rfl
      rw [get?_publishAll_of_not hnot, get?_publishAll_of_not hnot, h.get? f]
  · rw [scanned_publishAll, scanned_publishAll, h.scanned]

end FeatureSet

/-! ## Alike sets under the engine -/

section

variable [RegexBackend] {fs fs' : FeatureSet}

/-- Sets with the same lookups give a body one outcome, failures included. -/
theorem evaluateBoolean_of_lookups (h : ∀ f, fs.get? f = fs'.get? f) (n : Node) :
    evaluateBoolean fs n = evaluateBoolean fs' n := by
  have hevery : ∀ cs : List Node,
      (∀ c ∈ cs, evaluateBoolean fs c = evaluateBoolean fs' c) →
      everyBoolean fs cs = everyBoolean fs' cs := by
    intro cs ih
    induction cs with
    | nil => rfl
    | cons c cs ihcs =>
      rw [everyBoolean, everyBoolean, ih c List.mem_cons_self,
        ihcs fun x hx => ih x (List.mem_cons_of_mem _ hx)]
  have hsome : ∀ cs : List Node,
      (∀ c ∈ cs, evaluateBoolean fs c = evaluateBoolean fs' c) →
      someBoolean fs cs = someBoolean fs' cs := by
    intro cs ih
    induction cs with
    | nil => rfl
    | cons c cs ihcs =>
      rw [someBoolean, someBoolean, ih c List.mem_cons_self,
        ihcs fun x hx => ih x (List.mem_cons_of_mem _ hx)]
  have hcount : ∀ (count : UInt32) (cs : List Node),
      (∀ c ∈ cs, evaluateBoolean fs c = evaluateBoolean fs' c) →
      ∀ satisfied, countBoolean fs count satisfied cs = countBoolean fs' count satisfied cs := by
    intro count cs ih
    induction cs with
    | nil => exact fun _ => rfl
    | cons c cs ihcs =>
      intro satisfied
      have hcs := ihcs fun x hx => ih x (List.mem_cons_of_mem _ hx)
      rw [countBoolean, countBoolean, ih c List.mem_cons_self]
      simp only [hcs]
  induction n using Node.induct with
  | and cs d ih =>
    rw [evaluateBoolean, evaluateBoolean]
    exact hevery cs ih
  | or cs d ih =>
    rw [evaluateBoolean, evaluateBoolean]
    exact hsome cs ih
  | not c d ih => rw [evaluateBoolean, evaluateBoolean, ih]
  | some k cs d ih =>
    rw [evaluateBoolean, evaluateBoolean]
    exact hcount k cs ih 0
  | range f min max d =>
    rw [evaluateBoolean, evaluateBoolean, locationCount, locationCount, h f]
  | subscope s b d ih => rw [evaluateBoolean, evaluateBoolean]
  | leaf f d =>
    rw [evaluateBoolean, evaluateBoolean]
    exact leafBoolean_congr fun g _ => h g

theorem FeatureSet.Alike.evaluateBoolean (h : fs.Alike fs') (n : Node) :
    CapaX.evaluateBoolean fs n = CapaX.evaluateBoolean fs' n :=
  evaluateBoolean_of_lookups h.get? n

theorem FeatureSet.Alike.evaluate (h : fs.Alike fs') (n : Node) :
    CapaX.evaluate fs false n = CapaX.evaluate fs' false n :=
  evaluate_congr (h.mono fun _ _ => trivial)

end

end CapaX
