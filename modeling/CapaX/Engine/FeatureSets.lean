import CapaX.Engine

/-
  Feature sets under the operations of the drivers: lookups after an insertion, a merge or the
  publication of a match, and the order of the keys. `indexRuleMatches` publishes a rule under
  its values `Rule.published`, one after the other (`indexRuleMatches_eq`).
-/

namespace CapaX

open Collections

namespace FeatureSet

theorem get?_insertMany (fs : FeatureSet) (f g : Feature) (locs : OrdSet Address) :
    (fs.insertMany f locs).get? g =
      if f == g then some ((fs.get? f).getD ∅ ∪ locs) else fs.get? g :=
  IndexMap.get?_upsert ..

theorem get?_insert (fs : FeatureSet) (f g : Feature) (addr : Address) :
    (fs.insert f addr).get? g =
      if f == g then some (((fs.get? f).getD ∅).insert addr) else fs.get? g :=
  IndexMap.get?_upsert ..

/-- `merge` and `merge_owned` build the same set. -/
theorem merge_eq_mergeOwned (fs other : FeatureSet) : fs.merge other = fs.mergeOwned other := by
  unfold merge mergeOwned IndexMap.mergeWith
  refine congrArg (fun f => List.foldl f fs other.entries) ?_
  funext acc e
  refine congrArg (acc.upsert e.1) ?_
  funext o
  cases o with
  | none => exact OrdSet.empty_union e.2
  | some locs => rfl

theorem get?_mergeOwned (fs other : FeatureSet) (f : Feature) :
    (fs.mergeOwned other).get? f =
      match other.get? f with
      | none => fs.get? f
      | some locs => some ((fs.get? f).getD ∅ ∪ locs) := by
  rw [mergeOwned, IndexMap.get?_mergeWith]
  cases other.get? f with
  | none => rfl
  | some locs =>
    cases fs.get? f with
    | none => exact congrArg some (OrdSet.empty_union locs).symm
    | some _ => rfl

/-! ## Publishing matches -/

/-- Insert locations under several match values. -/
def publish (fs : FeatureSet) (values : List String) (locs : OrdSet Address) : FeatureSet :=
  values.foldl (fun fs v => fs.insertMany (.matchedRule v) locs) fs

theorem get?_publish_of_not {fs : FeatureSet} {values : List String} {locs : OrdSet Address}
    {f : Feature} (h : ∀ v ∈ values, f ≠ .matchedRule v) :
    (fs.publish values locs).get? f = fs.get? f := by
  induction values generalizing fs with
  | nil => rfl
  | cons v values ih =>
    have hv : ¬ (Feature.matchedRule v == f) = true := fun hv =>
      h v List.mem_cons_self (Feature.matchedRule_beq_iff.mp hv)
    have hrest : ((fs.insertMany (.matchedRule v) locs).publish values locs).get? f = _ :=
      ih fun w hw => h w (List.mem_cons_of_mem _ hw)
    rw [get?_insertMany, if_neg hv] at hrest
    exact hrest

theorem get?_publish_of_mem {fs : FeatureSet} {values : List String} {locs : OrdSet Address}
    {v : String} (h : v ∈ values) :
    (fs.publish values locs).get? (.matchedRule v) =
      some ((fs.get? (.matchedRule v)).getD ∅ ∪ locs) := by
  induction values generalizing fs with
  | nil => exact absurd h List.not_mem_nil
  | cons w values ih =>
    show ((fs.insertMany (.matchedRule w) locs).publish values locs).get? _ = _
    by_cases hmem : v ∈ values
    · rw [ih hmem, get?_insertMany]
      by_cases hwv : (Feature.matchedRule w == Feature.matchedRule v) = true
      · obtain rfl : v = w := Feature.matchedRule.inj (Feature.matchedRule_beq_iff.mp hwv)
        rw [if_pos hwv, Option.getD_some, OrdSet.union_assoc, OrdSet.union_self]
      · rw [if_neg hwv]
    · obtain rfl : v = w := (List.mem_cons.mp h).resolve_right hmem
      have hnot : ∀ x ∈ values, Feature.matchedRule v ≠ .matchedRule x := fun x hx he =>
        hmem (by rwa [Feature.matchedRule.inj he])
      rw [get?_publish_of_not hnot, get?_insertMany, if_pos (Feature.beq_self rfl)]

/-- Publishing adds match features at the end of the key order. -/
theorem keys_publish (fs : FeatureSet) (values : List String) (locs : OrdSet Address) :
    ∃ new, (fs.publish values locs).keys = fs.keys ++ new ∧
      ∀ k ∈ new, ∃ v ∈ values, k = .matchedRule v := by
  induction values generalizing fs with
  | nil => exact ⟨[], (List.append_nil _).symm, fun _ hk => absurd hk List.not_mem_nil⟩
  | cons v values ih =>
    obtain ⟨new, hnew, hmem⟩ := ih (fs.insertMany (.matchedRule v) locs)
    have hmem : ∀ k ∈ new, ∃ w ∈ v :: values, k = .matchedRule w := fun k hk => by
      obtain ⟨w, hw, he⟩ := hmem k hk
      exact ⟨w, List.mem_cons_of_mem _ hw, he⟩
    have hkeys : (fs.insertMany (.matchedRule v) locs).keys = _ := IndexMap.keys_upsert ..
    by_cases hc : fs.containsKey (.matchedRule v) = true
    · rw [if_pos hc] at hkeys
      exact ⟨new, hkeys ▸ hnew, hmem⟩
    · rw [if_neg hc] at hkeys
      refine ⟨.matchedRule v :: new, ?_, fun k hk => ?_⟩
      · show ((fs.insertMany (.matchedRule v) locs).publish values locs).keys = _
        rw [hnew, hkeys, List.append_assoc]
        rfl
      · rcases List.mem_cons.mp hk with rfl | hk
        · exact ⟨v, List.mem_cons_self, rfl⟩
        · exact hmem k hk

end FeatureSet

/-- The namespaces a match of the rule is published under. -/
def Rule.namespaces (rule : Rule) : List String :=
  match rule.namespace_ with
  | none => []
  | some ns => ruleNamespaces ns

/-- The match values a match of the rule is published under. -/
def Rule.published (rule : Rule) : List String := rule.name :: rule.namespaces

theorem indexRuleMatches_eq (fs : FeatureSet) (rule : Rule) (locs : OrdSet Address) :
    indexRuleMatches fs rule locs = fs.publish rule.published locs := by
  unfold indexRuleMatches Rule.published Rule.namespaces
  cases rule.namespace_ <;> rfl

theorem namespaceLoop_eq (fuel : Nat) (cs : List Char) :
    namespaceLoop fuel cs = (successors fuel cs).filter fun p => decide (p ≠ []) := by
  induction fuel generalizing cs with
  | zero => rfl
  | succ fuel ih =>
    unfold namespaceLoop successors
    cases cs with
    | nil => rfl
    | cons c cs =>
      rw [if_neg (fun h => (nomatch h)), List.filter_cons, if_pos (decide_eq_true (by simp))]
      refine congrArg _ ?_
      cases beforeLastSlash (c :: cs) with
      | none => rfl
      | some p => exact ih p

/-- A rule is filed under the namespaces it is published under, but for the empty one. -/
theorem Rule.mem_prefixes {rule : Rule} {p : String} :
    p ∈ rule.prefixes ↔ p ∈ rule.namespaces ∧ p ≠ "" := by
  unfold Rule.prefixes Rule.namespaces
  cases rule.namespace_ with
  | none => exact ⟨fun h => absurd h List.not_mem_nil, fun h => absurd h.1 List.not_mem_nil⟩
  | some ns =>
    have hempty : ∀ cs : List Char, String.ofList cs = "" ↔ cs = [] := fun cs => by
      rw [show ("" : String) = String.ofList [] from rfl, String.ofList_inj]
    show p ∈ (namespaceLoop _ _).map String.ofList ↔ p ∈ (successors _ _).map String.ofList ∧ _
    rw [namespaceLoop_eq, List.mem_map, List.mem_map]
    constructor
    · intro ⟨cs, hcs, he⟩
      obtain ⟨hcs, hne⟩ := List.mem_filter.mp hcs
      exact ⟨⟨cs, hcs, he⟩, he ▸ fun h => of_decide_eq_true hne ((hempty cs).mp h)⟩
    · intro ⟨⟨cs, hcs, he⟩, hne⟩
      exact ⟨cs, List.mem_filter.mpr ⟨hcs, decide_eq_true fun h => hne (he ▸ (hempty cs).mpr h)⟩, he⟩

end CapaX
