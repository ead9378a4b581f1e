import CapaX.Capabilities.Order
import CapaX.ResultDocument.Splicing
import CapaX.ResultDocument.Tracing

/-
  When the result document of a static run can be built. The dependencies of the rules were checked
  for cycles with namespaces before rule names, and `buildMatch` resolves a match leaf with rule
  names before namespaces. A value that is both, a clash, is where the two part; a name that two
  rules share is where the evidence of one is taken for that of the other.
  `buildResultDocument_iff` says that nothing else can fail, and that a document is built exactly
  when such leaves find the rule they name and lead to no endless splicing.
-/

namespace CapaX

open Collections Control Graphs Relation

namespace ResultDocument

/-- The value is the name of a rule and a namespace. -/
def Clashes (es : List Rule) (v : String) : Prop :=
  (∃ a ∈ es, a.name = v) ∧ ∃ b ∈ es, v ∈ b.namespaces

/-- Two different rules of the list have the name. -/
def Shared (es : List Rule) (name : String) : Prop :=
  ∃ a ∈ es, ∃ b ∈ es, a.name = name ∧ b.name = name ∧ a ≠ b

/-- The names a match value is resolved to: the rule of the name, or the rules of the namespace. -/
def Target (set : MatchingRuleSet) (v name : String) : Prop :=
  (set.get v).isSome = true ∧ name = v ∨
    set.get v = none ∧ name ∈ (set.byNamespacePrefix.get? v).getD []

/-- The value clashes, or it is resolved to a name that two rules share. -/
def Entangled (set : MatchingRuleSet) (es : List Rule) (v : String) : Prop :=
  Clashes es v ∨ ∃ name, Target set v name ∧ Shared es name

/-- A node of the recorded evidence of a rule. -/
def InTree (results : MatchResults) (name : String) (t : MatchResult) : Prop :=
  ∃ res, results.get? name = some res ∧ ∃ r ∈ res, t ∈ r.2.nodes

/-- The evidence the document starts from. -/
def Root (set : MatchingRuleSet) (results : MatchResults) (m : MatchResult) : Prop :=
  ∃ name res rule, results.get? name = some res ∧ set.get name = some rule ∧
    rule.isSubscopeRule = false ∧ ∃ r ∈ res, r.2 = m

/-- A node the recursion comes to, as far as it goes. -/
def Reached (set : MatchingRuleSet) (results : MatchResults) (t : MatchResult) : Prop :=
  ∃ m, Root set results m ∧ ReflTransGen (Calls set results) m t

/-- Every successful match leaf that names a rule has a recorded match of it at each location. -/
def LeavesFound (set : MatchingRuleSet) (results : MatchResults) : Prop :=
  ∀ name t v, InTree results name t → matchLeaf t = some v → (set.get v).isSome = true →
    ∀ a ∈ t.locations, Recorded results v a

/-- The clashes do no harm: leaves with one find the rule they name, and they and the leaves with a
    shared name do not come back to themselves. A count of a COM feature has no rendered form. -/
structure Unambiguous (set : MatchingRuleSet) (es : List Rule) (results : MatchResults) :
    Prop where
  found : ∀ name t v, InTree results name t → matchLeaf t = some v → Clashes es v →
    ∀ a ∈ t.locations, Recorded results v a
  ends : ∀ t v, Reached set results t → matchLeaf t = some v → Entangled set es v →
    ¬ TransGen (Calls set results) t t
  counts : ∀ t, Reached set results t → ∀ kind name min max,
    t.node ≠ .range (.com kind name) min max

/-! ## What is spliced in -/

section

variable {set : MatchingRuleSet} {results : MatchResults} {name : String} {a : Address}
  {m t : MatchResult}

/-- A fold that keeps one of the entries it has seen. -/
theorem mem_of_foldl {α : Type} {f : Option α → α → Option α}
    (hf : ∀ best e p, f best e = some p → p = e ∨ best = some p) {l : List α} {best : Option α}
    {p : α} (h : l.foldl f best = some p) : p ∈ l ∨ best = some p := by
  induction l generalizing best with
  | nil => exact Or.inr h
  | cons e l ih =>
    obtain hp | hp := ih h
    · exact Or.inl (List.mem_cons_of_mem _ hp)
    · obtain rfl | hp := hf best e p hp
      · exact Or.inl List.mem_cons_self
      · exact Or.inr hp

theorem mem_of_mostRecentInThread {ruleMatches : IndexMap Address MatchResult}
    {ppid pid tid : UInt32} {id : UInt64}
    (h : mostRecentInThread ruleMatches ppid pid tid id = some m) :
    ∃ e ∈ ruleMatches.entries, e.2 = m := by
  unfold mostRecentInThread at h
  obtain ⟨p, hp, rfl⟩ := Option.map_eq_some_iff.mp h
  have hmem := mem_of_foldl (fun best e p' hbest => ?_) hp
  · obtain hmem | hnone := hmem
    swap
    · cases hnone
    obtain ⟨e, he, hsome⟩ := List.mem_filterMap.mp hmem
    refine ⟨e, he, ?_⟩
    split at hsome
    · split at hsome
      · rw [← Option.some.inj hsome]
      · cases hsome
    · cases hsome
  · split at hbest
    · exact Or.inl (Option.some.inj hbest).symm
    · split at hbest
      · exact Or.inl (Option.some.inj hbest).symm
      · exact Or.inr hbest

/-- Whatever is spliced in for a rule is recorded for it. -/
theorem inTree_of_matchAt (h : matchAt (ruleMatchIndex results name) a = some m) :
    InTree results name m := by
  have hentry : ∃ e ∈ (results.get? name).getD [], e.2 = m := by
    unfold matchAt at h
    cases hget : (ruleMatchIndex results name).get? a with
    | some m' =>
      rw [hget] at h
      obtain ⟨e, he, hm, _⟩ := IndexMap.mem_of_get?_ofList hget
      exact ⟨e, he, hm.trans (Option.some.inj h)⟩
    | none =>
      rw [hget] at h
      dsimp only at h
      split at h
      · obtain ⟨e, he, rfl⟩ := mem_of_mostRecentInThread h
        have hkey : (ruleMatchIndex results name).get? e.1 = some e.2 :=
          IndexMap.get?_of_mem he (beq_self_eq_true _)
        obtain ⟨e', he', hm, _⟩ := IndexMap.mem_of_get?_ofList hkey
        exact ⟨e', he', hm⟩
      · cases h
  obtain ⟨e, he, rfl⟩ := hentry
  cases hres : results.get? name with
  | none =>
    rw [hres] at he
    exact absurd he List.not_mem_nil
  | some res =>
    rw [hres] at he
    exact ⟨res, hres, e, he, MatchResult.self_mem_nodes _⟩

theorem matchAt_of_recorded (h : Recorded results name a) :
    (matchAt (ruleMatchIndex results name) a).isSome = true := by
  obtain ⟨res, hres, r, hr, ha⟩ := h
  have hsome : ((ruleMatchIndex results name).get? a).isSome = true := by
    unfold ruleMatchIndex
    rw [hres]
    exact IndexMap.get?_ofList_isSome hr (beq_iff_eq.mpr ha)
  obtain ⟨m, hm⟩ := Option.isSome_iff_exists.mp hsome
  unfold matchAt
  rw [hm]
  rfl

theorem mem_spliced (h : t ∈ spliced set results m) :
    ∃ v, matchLeaf m = some v ∧ ∃ name, Target set v name ∧ InTree results name t := by
  unfold spliced at h
  cases hm : matchLeaf m with
  | none =>
    rw [hm] at h
    exact absurd h List.not_mem_nil
  | some v =>
    rw [hm] at h
    dsimp only at h
    refine ⟨v, rfl, ?_⟩
    cases hget : set.get v with
    | some rule =>
      rw [hget] at h
      obtain ⟨a, _, ha⟩ := List.mem_filterMap.mp h
      exact ⟨v, Or.inl ⟨by rw [hget]; rfl, rfl⟩, inTree_of_matchAt ha⟩
    | none =>
      rw [hget] at h
      obtain ⟨name, hname, ht⟩ := List.mem_flatMap.mp h
      refine ⟨name, Or.inr ⟨hget, hname⟩, ?_⟩
      unfold namespaceMatchesAt at ht
      split at ht
      · obtain ⟨a, _, ha⟩ := List.mem_filterMap.mp ht
        exact inTree_of_matchAt ha
      · exact absurd ht List.not_mem_nil

/-- From a node of a tree the recursion goes down in the tree or to the tree of a target. -/
theorem inTree_of_call (h : InTree results name m) (hc : Calls set results m t) :
    ∃ name', InTree results name' t ∧ (name' = name ∧ t ∈ m.children ∨
      ∃ v, matchLeaf m = some v ∧ Target set v name') := by
  rcases List.mem_append.mp hc with hc | hc
  · obtain ⟨res, hres, r, hr, hm⟩ := h
    exact ⟨name, ⟨res, hres, r, hr, MatchResult.child_mem_nodes hm hc⟩, Or.inl ⟨rfl, hc⟩⟩
  · obtain ⟨v, hv, name', hn, ht⟩ := mem_spliced hc
    exact ⟨name', ht, Or.inr ⟨v, hv, hn⟩⟩

end

/-! ## No endless splicing -/

/-- A call from a node of one rule's evidence to a node of another's. -/
def Jump (set : MatchingRuleSet) (results : MatchResults) (p q : String × MatchResult) : Prop :=
  InTree results q.1 q.2 ∧ Calls set results p.2 q.2 ∧
    (q.1 = p.1 ∧ q.2 ∈ p.2.children ∨ ∃ v, matchLeaf p.2 = some v ∧ Target set v q.1)

/-- A jump that no clash and no shared name has a part in. -/
def PlainJump (set : MatchingRuleSet) (es : List Rule) (results : MatchResults)
    (p q : String × MatchResult) : Prop :=
  Jump set results p q ∧ (q.1 = p.1 ∧ q.2 ∈ p.2.children ∨
    ∃ v, matchLeaf p.2 = some v ∧ Target set v q.1 ∧ ¬ Entangled set es v)

section

variable {set : MatchingRuleSet} {es : List Rule} {results : MatchResults}
  {p q : String × MatchResult}

theorem Jump.plain_or_entangled (h : Jump set results p q)
    (hnot : ¬ PlainJump set es results p q) :
    ∃ v, matchLeaf p.2 = some v ∧ Entangled set es v := by
  rcases h.2.2 with hchild | ⟨v, hv, htarget⟩
  · exact absurd ⟨h, Or.inl hchild⟩ hnot
  · refine ⟨v, hv, ?_⟩
    by_contra hplain
    exact hnot ⟨h, Or.inr ⟨v, hv, htarget, hplain⟩⟩

/-- A chain of plain jumps goes down in one tree, or it comes to a name of one rule. -/
theorem PlainJump.descends (h : TransGen (PlainJump set es results) p q) :
    q.1 = p.1 ∧ sizeOf q.2 < sizeOf p.2 ∨ ¬ Shared es q.1 := by
  have hstep : ∀ {p q : String × MatchResult}, PlainJump set es results p q →
      q.1 = p.1 ∧ sizeOf q.2 < sizeOf p.2 ∨ ¬ Shared es q.1 := by
    rintro p q ⟨_, ⟨hname, hchild⟩ | ⟨v, _, htarget, hplain⟩⟩
    · exact Or.inl ⟨hname, MatchResult.sizeOf_child hchild⟩
    · exact Or.inr fun hshared => hplain (Or.inr ⟨q.1, htarget, hshared⟩)
  induction h with
  | single hj => exact hstep hj
  | tail _ hj ih =>
    obtain ⟨hname, hlt⟩ | hsole := hstep hj
    · rcases ih with ⟨hname', hlt'⟩ | hsole
      · exact Or.inl ⟨hname.trans hname', hlt.trans hlt'⟩
      · exact Or.inr (hname ▸ hsole)
    · exact Or.inr hsole

theorem calls_of_jumps (h : ReflTransGen (Jump set results) p q) :
    ReflTransGen (Calls set results) p.2 q.2 := by
  induction h with
  | refl => exact .refl
  | tail _ hj ih => exact ih.tail hj.2.1

/-- The nodes of all recorded trees, with the rule each is recorded for. -/
theorem finite_inTree : {p : String × MatchResult | InTree results p.1 p.2}.Finite := by
  refine (List.finite_toSet (results.entries.flatMap fun e =>
    e.2.flatMap fun r => r.2.nodes.map fun t => (e.1, t))).subset ?_
  rintro ⟨name, t⟩ ⟨res, hres, r, hr, ht⟩
  obtain ⟨name', hmem, hname⟩ := IndexMap.mem_of_get? hres
  obtain rfl := eq_of_beq hname
  exact List.mem_flatMap.mpr ⟨_, hmem, List.mem_flatMap.mpr ⟨r, hr, List.mem_map_of_mem ht⟩⟩

end

section

variable [ComDatabase] {rules es : List Rule} {v name name' : String}

omit [ComDatabase] in
/-- A target of a value without a clash is what the dependencies say. -/
theorem Target.mem_referents (h : Target (MatchingRuleSet.ofExpanded es) v name)
    (hclash : ¬ Clashes es v) : name ∈ referents (indexRulesByNamespace es) v := by
  rcases h with ⟨hsome, rfl⟩ | ⟨_, hmem⟩
  · obtain ⟨rule, hrule⟩ := Option.isSome_iff_exists.mp hsome
    obtain ⟨hes, hname⟩ := indexByName_some hrule
    refine CapaX.mem_referents.mpr (Or.inr ⟨rfl, fun b hb hvb => hclash ?_⟩)
    exact ⟨⟨rule, hes, hname⟩, b, hb, (Rule.mem_prefixes.mp hvb).1⟩
  · have hmem : name ∈ ((indexRulesByNamespace es).get? v).getD [] := hmem
    unfold referents
    cases hget : (indexRulesByNamespace es).get? v with
    | none =>
      rw [hget] at hmem
      exact absurd hmem List.not_mem_nil
    | some names =>
      rw [hget] at hmem
      exact hmem

/-- Without a clash the target of a leaf stands lower than the rule of the leaf. -/
theorem Target.stands (ha : RuleSet.Accepts rules) (hes : expandAndExtract rules = .ok es)
    {order : List String}
    (horder : ∀ r ∈ rules, ∀ d ∈ getDependencies r.body (indexRulesByNamespace rules),
      order.idxOf d < order.idxOf r.name) {rule : Rule} (hrule : rule ∈ es)
    (hsole : ¬ Shared es rule.name) (hv : v ∈ rule.body.observed) (hclash : ¬ Clashes es v)
    (h : Target (MatchingRuleSet.ofExpanded es) v name) {at_ : Nat × Nat}
    (hs : Stands rules es order rule.name at_) :
    ∃ at', Stands rules es order name at' ∧ Prod.Lex (· < ·) (· < ·) at' at_ := by
  obtain ⟨g, hg, r, hdesc, e, he, hf, hname, rfl⟩ := hs
  obtain rfl : e = rule := by
    by_contra hne
    exact hsole ⟨e, he, rule, hrule, hname, rfl, hne⟩
  refine stands_referent ha hes horder hg hdesc hf hv (fun hnamed b hb hvb => hclash ?_)
    (h.mem_referents hclash)
  exact ⟨hnamed, b, hb, (Rule.mem_prefixes.mp hvb).1⟩

end

section

variable [ComDatabase] [RegexBackend] {rules es : List Rule} {results : MatchResults}

omit [ComDatabase] in
/-- What the recorded evidence of a run is known to say. -/
theorem evidence_of_inTree {set : MatchingRuleSet} {rec : String → Address → Prop}
    (ht : Traced set rec results) {name : String} {t : MatchResult} (h : InTree results name t) :
    ∃ rule scope fs, set.get name = some rule ∧ rule.scopes.contains scope = true ∧
      Backed set rec fs ∧ Evidence fs rule.body t := by
  obtain ⟨res, hres, r, hr, hmem⟩ := h
  obtain ⟨_, rule, scope, hget, hscope, hall⟩ := ht name res hres
  obtain ⟨fs, hback, heval⟩ := hall r hr
  exact ⟨rule, scope, fs, hget, hscope, hback, evaluate_evidence heval t hmem⟩

/-- No chain of plain jumps comes back to where it starts. -/
theorem no_plain_cycle (ha : RuleSet.Accepts rules) (hes : expandAndExtract rules = .ok es)
    {rec : String → Address → Prop}
    (ht : Traced (MatchingRuleSet.ofExpanded es) rec results) {p : String × MatchResult}
    (hp : InTree results p.1 p.2) :
    ¬ TransGen (PlainJump (MatchingRuleSet.ofExpanded es) es results) p p := by
  obtain ⟨order, _, horder⟩ := ha.ordered
  let Lower : (Nat × Nat) × Nat → (Nat × Nat) × Nat → Prop :=
    Prod.Lex (Prod.Lex (· < ·) (· < ·)) (· < ·)
  have hwf : WellFounded Lower := WellFounded.prod_lex
    (WellFounded.prod_lex Nat.lt_wfRel.wf Nat.lt_wfRel.wf) Nat.lt_wfRel.wf
  have hstep : ∀ {p q : String × MatchResult}, InTree results p.1 p.2 → ¬ Shared es p.1 →
      PlainJump (MatchingRuleSet.ofExpanded es) es results p q →
        ∀ at_, Stands rules es order p.1 at_ → ∃ at', Stands rules es order q.1 at' ∧
          Lower (at', sizeOf q.2) (at_, sizeOf p.2) := by
    intro p q hp hsole hj at_ hs
    rcases hj.2 with ⟨hname, hchild⟩ | ⟨v, hv, htarget, hplain⟩
    · refine ⟨at_, hname ▸ hs, ?_⟩
      exact .right _ (MatchResult.sizeOf_child hchild)
    · obtain ⟨rule, _, _, hget, _, _, hev⟩ := evidence_of_inTree ht hp
      obtain ⟨hrule, hname⟩ := indexByName_some hget
      rw [← hname] at hs hsole
      obtain ⟨at', hs', hlt⟩ := htarget.stands ha hes horder hrule hsole
        (hev.observed v (matchLeaf_eq_some.mp hv).2) (fun hclash => hplain (Or.inl hclash)) hs
      exact ⟨at', hs', .left _ _ hlt⟩
  have hpath : ∀ {p q : String × MatchResult}, InTree results p.1 p.2 → ¬ Shared es p.1 →
      TransGen (PlainJump (MatchingRuleSet.ofExpanded es) es results) p q →
        ∀ at_, Stands rules es order p.1 at_ → ∃ at', Stands rules es order q.1 at' ∧
          Lower (at', sizeOf q.2) (at_, sizeOf p.2) := by
    intro p q hp hsole hpq
    induction hpq with
    | single hj => exact hstep hp hsole hj
    | tail hpb hj ih =>
      intro at_ hs
      have hb : InTree results _ _ := (TransGen.tail'_iff.mp hpb).elim fun _ h => h.2.1.1
      have hsole' : ¬ Shared es _ := (PlainJump.descends hpb).elim (fun h => h.1 ▸ hsole) id
      obtain ⟨at1, hs1, hlt1⟩ := ih at_ hs
      obtain ⟨at2, hs2, hlt2⟩ := hstep hb hsole' hj at1 hs1
      exact ⟨at2, hs2, Trans.trans hlt2 hlt1⟩
  intro hcycle
  have hsole : ¬ Shared es p.1 :=
    (PlainJump.descends hcycle).elim (fun h => absurd h.2 (Nat.lt_irrefl _)) id
  have hnone : ∀ low : (Nat × Nat) × Nat, low.2 = sizeOf p.2 →
      ¬ Stands rules es order p.1 low.1 := fun low => by
    induction low using hwf.induction with
    | _ low ih =>
      intro hsize hs
      obtain ⟨at', hs', hlt⟩ := hpath hp hsole hcycle low.1 hs
      rw [← hsize] at hlt
      exact ih (at', low.2) hlt hsize hs'
  obtain ⟨rule, _, _, hget, _, _, _⟩ := evidence_of_inTree ht hp
  obtain ⟨hrule, hname⟩ := indexByName_some hget
  obtain ⟨r, hr, hf⟩ := ((expandAndExtract_spec hes).1 rule).mp hrule
  obtain ⟨g, hg, hd⟩ := hr.origin
  exact hnone (_, sizeOf p.2) rfl ⟨g, hg, r, hd, rule, hrule, hf, hname, rfl⟩

variable {freeze : StaticFeatures} {set : MatchingRuleSet} {m t : MatchResult}

omit [ComDatabase] [RegexBackend] in
/-- What is reached is a node of some recorded tree. -/
theorem inTree_of_reached (h : Reached set results t) : ∃ name, InTree results name t := by
  obtain ⟨m, ⟨name, res, rule, hres, _, _, r, hr, rfl⟩, hreach⟩ := h
  induction hreach with
  | refl => exact ⟨name, res, hres, r, hr, MatchResult.self_mem_nodes _⟩
  | tail _ hc ih =>
    obtain ⟨name', hin⟩ := ih
    obtain ⟨name'', hin', _⟩ := inTree_of_call hin hc
    exact ⟨name'', hin'⟩

/-- Unless a clash or a shared name leads back, the recursion from a reached node ends. -/
theorem acc_of_ends (ha : RuleSet.Accepts rules) (hes : expandAndExtract rules = .ok es)
    {rec : String → Address → Prop}
    (ht : Traced (MatchingRuleSet.ofExpanded es) rec results)
    (hends : ∀ t v, Reached (MatchingRuleSet.ofExpanded es) results t → matchLeaf t = some v →
      Entangled (MatchingRuleSet.ofExpanded es) es v →
        ¬ TransGen (Calls (MatchingRuleSet.ofExpanded es) results) t t)
    (hm : Reached (MatchingRuleSet.ofExpanded es) results m) :
    Acc (fun b a => Calls (MatchingRuleSet.ofExpanded es) results a b) m := by
  let s : Set (String × MatchResult) :=
    {p | InTree results p.1 p.2 ∧ Reached (MatchingRuleSet.ofExpanded es) results p.2}
  have hfinite : s.Finite := finite_inTree.subset fun p hp => hp.1
  have hclosed : ∀ p ∈ s, ∀ q, Jump (MatchingRuleSet.ofExpanded es) results p q → q ∈ s := by
    intro p ⟨_, root, hroot, hreach⟩ q hj
    exact ⟨hj.1, root, hroot, hreach.tail hj.2.1⟩
  have hstays : ∀ p ∈ s, ∀ q, ReflTransGen (Jump (MatchingRuleSet.ofExpanded es) results) p q →
      q ∈ s := by
    intro p hp q hpq
    induction hpq with
    | refl => exact hp
    | tail _ hj ih => exact hclosed _ ih _ hj
  have hacyclic : ∀ p ∈ s, ¬ TransGen (Jump (MatchingRuleSet.ofExpanded es) results) p p := by
    intro p hp hcycle
    rcases plain_or_not (PlainJump (MatchingRuleSet.ofExpanded es) es results) hcycle with
      hplain | ⟨c, d, hpc, hcd, hnot, hdp⟩
    · exact no_plain_cycle ha hes ht hp.1 hplain
    · obtain ⟨v, hv, hentangled⟩ := hcd.plain_or_entangled hnot
      refine hends c.2 v (hstays p hp c hpc).2 hv hentangled ?_
      exact TransGen.head' hcd.2.1 ((calls_of_jumps hdp).trans (calls_of_jumps hpc))
  have hacc : ∀ p : String × MatchResult, p ∈ s →
      Acc (fun b a => Calls (MatchingRuleSet.ofExpanded es) results a b) p.2 := by
    intro p hp
    induction acc_of_acyclic hfinite hclosed hacyclic hp with
    | intro p _ ih =>
      refine ⟨p.2, fun b hb => ?_⟩
      obtain ⟨name', hin, hway⟩ := inTree_of_call hp.1 hb
      have hj : Jump (MatchingRuleSet.ofExpanded es) results p (name', b) := ⟨hin, hb, hway⟩
      exact ih (name', b) hj (hclosed p hp _ hj)
  obtain ⟨name, hin⟩ := inTree_of_reached hm
  exact hacc (name, m) ⟨hin, hm⟩

omit [ComDatabase] [RegexBackend] in
theorem not_shared (hn : (es.map (·.name)).Nodup) {name : String} : ¬ Shared es name := by
  rintro ⟨a, ha, b, hb, rfl, hname, hne⟩
  exact hne (List.inj_on_of_nodup_map hn ha hb hname.symm)

omit [ComDatabase] [RegexBackend] in
/-- With distinct names only a clash entangles a value. -/
theorem clashes_of_entangled (hn : (es.map (·.name)).Nodup) {v : String}
    (h : Entangled set es v) : Clashes es v :=
  h.resolve_right fun hshared => hshared.elim fun _ hname => not_shared hn hname.2

/-! ## The document -/

omit [ComDatabase] [RegexBackend] in
/-- Some depth is enough for the document exactly when the recursion ends and is sound wherever it
    goes. -/
theorem built_iff {order : IterOrder} :
    (∃ depth, ∀ depth' ≥ depth, Succeeds (buildResultDocument set results order depth')) ↔
      ∀ t, Reached set results t →
        Acc (fun b a => Calls set results a b) t ∧ Sound set results t := by
  have hfin : ∀ a, ∃ l : List MatchResult, ∀ b, Calls set results a b → b ∈ l :=
    fun a => ⟨_, fun b hb => hb⟩
  constructor
  · intro ⟨depth, hdepth⟩ t ⟨m, ⟨name, res, rule, hres, hget, hsub, r, hr, hm⟩, hreach⟩
    have hroot := buildResultDocument_succeeds.mp (hdepth depth (Nat.le_refl _)) name res rule hres
      hget hsub r hr
    rw [hm] at hroot
    obtain ⟨depth', hcomp⟩ := completes_reached hroot hreach
    obtain ⟨hacc, hsound⟩ := (exists_completes_iff hfin).mp ⟨depth', hcomp⟩
    exact ⟨hacc, hsound t .refl⟩
  · intro h
    have hroot : ∀ m, Root set results m → ∃ depth,
        Completes (Calls set results) (Sound set results) depth m := by
      intro m hm
      exact (exists_completes_iff hfin).mpr
        ⟨(h m ⟨m, hm, .refl⟩).1, fun b hb => (h b ⟨m, hm, hb⟩).2⟩
    obtain ⟨depth, hdepth⟩ : ∃ depth, ∀ m ∈ results.entries.flatMap fun e => e.2.map (·.2),
        Root set results m → Completes (Calls set results) (Sound set results) depth m :=
      exists_common_depth fun m _ hm => hroot m hm
    refine ⟨depth, fun depth' hle => buildResultDocument_succeeds.mpr ?_⟩
    intro name res rule hres hget hsub r hr
    obtain ⟨name', hmem, _⟩ := IndexMap.mem_of_get? hres
    have hlisted : r.2 ∈ results.entries.flatMap fun e => e.2.map (·.2) :=
      List.mem_flatMap.mpr ⟨_, hmem, List.mem_map_of_mem hr⟩
    exact completes_mono (hdepth r.2 hlisted ⟨name, res, rule, hres, hget, hsub, r, hr, rfl⟩) hle

omit [ComDatabase] in
/-- A leaf without a clash that names a rule is where that rule is on record: whatever published
    the value is the rule. -/
theorem recorded_of_leaf {rec : String → Address → Prop}
    (ht : Traced (MatchingRuleSet.ofExpanded es) rec results) {name v : String}
    (hin : InTree results name t) (hv : matchLeaf t = some v)
    (hsome : ((MatchingRuleSet.ofExpanded es).get v).isSome = true) (hclash : ¬ Clashes es v)
    {a : Address} (hloc : a ∈ t.locations) : rec v a := by
  obtain ⟨_, _, fs, _, _, hback, hev⟩ := evidence_of_inTree ht hin
  obtain ⟨hsucc, hnode⟩ := matchLeaf_eq_some.mp hv
  obtain ⟨_, hlocs⟩ := hev.located v hnode hsucc
  rw [hlocs] at hloc
  obtain ⟨name', rule, hget, hpub, hrec⟩ := hback.recorded v a hloc
  obtain ⟨hrule, hname⟩ := indexByName_some hget
  rcases List.mem_cons.mp hpub with rfl | hns
  · rwa [hname]
  · obtain ⟨rule', hget'⟩ := Option.isSome_iff_exists.mp hsome
    obtain ⟨hrule', hname'⟩ := indexByName_some hget'
    exact absurd ⟨⟨rule', hrule', hname'⟩, rule, hrule, hns⟩ hclash

omit [ComDatabase] in
/-- The leaves find what they name when those with a clash do. -/
theorem leavesFound_of_unambiguous (ht : Traced (MatchingRuleSet.ofExpanded es)
    (Recorded results) results) (hu : Unambiguous (MatchingRuleSet.ofExpanded es) es results) :
    LeavesFound (MatchingRuleSet.ofExpanded es) results := by
  intro name t v hin hv hsome a hloc
  by_cases hclash : Clashes es v
  · exact hu.found name t v hin hv hclash a hloc
  · exact recorded_of_leaf ht hin hv hsome hclash hloc

omit [ComDatabase] in
/-- A node is sound when, as a leaf that names a rule, it finds matches and it counts no COM
    feature. Such a leaf is somewhere, so the rule has evidence and with it a scope. -/
theorem sound_of_matched {rec : String → Address → Prop} (ht : Traced set rec results)
    {name : String} (hin : InTree results name t)
    (hmatched : ∀ v, matchLeaf t = some v → (set.get v).isSome = true →
      ∀ a ∈ t.locations, (matchAt (ruleMatchIndex results v) a).isSome = true)
    (hcounts : ∀ kind name min max, t.node ≠ .range (.com kind name) min max) :
    Sound set results t := by
  obtain ⟨_, _, fs, _, _, hback, hev⟩ := evidence_of_inTree ht hin
  refine ⟨fun kind n => ⟨hev.expanded kind n, hcounts kind n⟩, fun v hv rule hget => ?_⟩
  have hfind := hmatched v hv (by rw [hget]; rfl)
  refine ⟨fun _ => ?_, fun a ha => ?_⟩
  · obtain ⟨hsucc, hnode⟩ := matchLeaf_eq_some.mp hv
    obtain ⟨hhas, hlocs⟩ := hev.located v hnode hsucc
    obtain ⟨a, ha⟩ := hback.placed v hhas
    rw [← hlocs] at ha
    obtain ⟨m, hm⟩ := Option.isSome_iff_exists.mp (hfind a ha)
    obtain ⟨rule', scope, _, hget', hscope, _⟩ := evidence_of_inTree ht (inTree_of_matchAt hm)
    obtain rfl := Option.some.inj (hget.symm.trans hget')
    unfold Scopes.contains at hscope
    cases hstatic : rule.scopes.static_ with
    | some s => rfl
    | none =>
      cases hdynamic : rule.scopes.dynamic with
      | some s => rfl
      | none => simp [hstatic, hdynamic] at hscope
  · obtain ⟨m, hm⟩ := Option.isSome_iff_exists.mp (hfind a ha)
    unfold ruleMatchAt
    rw [hm]
    exact succeeds_ok _

/-- The document of a run is built within some depth and every successful leaf that names a rule
    finds its match, exactly when no clash and no shared name does harm. -/
theorem buildResultDocument_iff (hset : MatchingRuleSet.new rules = .ok set)
    (hes : expandAndExtract rules = .ok es)
    (hfree : freeze.NoMatches) {orders : StaticOrders} {caps : StaticCapabilities}
    (hrun : findStaticCapabilities set freeze orders = .ok caps) (order : IterOrder) :
    (∃ depth, ∀ depth' ≥ depth,
        Succeeds (buildResultDocument set caps.results order depth')) ∧
        LeavesFound set caps.results ↔
      Unambiguous set es caps.results := by
  have ht := findStaticCapabilities_traced hset hfree hrun
  obtain ⟨ha, es0, hes0, rfl⟩ := MatchingRuleSet.new_ok hset
  obtain rfl : es0 = es := Except.ok.inj (hes0.symm.trans hes)
  rw [built_iff]
  constructor
  · intro ⟨hbuilt, hfound⟩
    refine ⟨fun name t v hin hv hclash => ?_, fun t v hr _ _ hcycle => ?_, fun t hr kind n => ?_⟩
    · obtain ⟨⟨e, he, hname⟩, _⟩ := hclash
      exact hfound name t v hin hv (hname ▸ indexByName_isSome he)
    · exact acyclic_of_acc (hbuilt t hr).1 hcycle
    · exact ((hbuilt t hr).2.renders kind n).2
  · intro hu
    have hfound := leavesFound_of_unambiguous ht hu
    refine ⟨fun t hr => ⟨acc_of_ends ha hes ht hu.ends hr, ?_⟩, hfound⟩
    obtain ⟨name, hin⟩ := inTree_of_reached hr
    refine sound_of_matched ht hin (fun v hv hsome a hloc => ?_) (hu.counts t hr)
    exact matchAt_of_recorded (hfound name t v hin hv hsome a hloc)

omit [ComDatabase] in
/-- No clash and no shared name does harm where no rule asks for one. -/
theorem unambiguous_of_apart
    (ht : Traced (MatchingRuleSet.ofExpanded es) (Recorded results) results)
    (hapart : ∀ e ∈ es, ∀ v ∈ e.body.observed, ¬ Entangled (MatchingRuleSet.ofExpanded es) es v)
    (hcounts : ∀ name t, InTree results name t → ∀ kind n min max,
      t.node ≠ .range (.com kind n) min max) :
    Unambiguous (MatchingRuleSet.ofExpanded es) es results := by
  have hnone : ∀ name t v, InTree results name t → matchLeaf t = some v →
      ¬ Entangled (MatchingRuleSet.ofExpanded es) es v := by
    intro name t v hin hv
    obtain ⟨rule, _, _, hget, _, _, hev⟩ := evidence_of_inTree ht hin
    exact hapart rule (indexByName_some hget).1 v (hev.observed v (matchLeaf_eq_some.mp hv).2)
  refine ⟨fun name t v hin hv hclash => absurd (Or.inl hclash) (hnone name t v hin hv),
    fun t v hr hv hentangled => ?_, fun t hr => ?_⟩
  · obtain ⟨name, hin⟩ := inTree_of_reached hr
    exact absurd hentangled (hnone name t v hin hv)
  · obtain ⟨name, hin⟩ := inTree_of_reached hr
    exact hcounts name t hin

end

theorem buildResultDocument_iff_openAndCreate :
    ∃ set es caps, @MatchingRuleSet.new .empty openAndCreate = .ok set ∧
      @expandAndExtract .empty openAndCreate = .ok es ∧
      @findStaticCapabilities .empty set copyingSample .insertion = .ok caps ∧
      ((∃ depth, ∀ depth' ≥ depth,
          Succeeds (buildResultDocument set caps.results .insertion depth')) ∧
          LeavesFound set caps.results ↔
        Unambiguous set es caps.results) := by
  refine ⟨_, _, _, rfl, rfl, rfl, ?_⟩
  exact @buildResultDocument_iff .empty .empty openAndCreate _ copyingSample _ rfl rfl
    copyingSample_noMatches .insertion _ rfl .insertion

/-- `n` asks for `q`, and `q` for the namespace `n`, where `c` is. -/
def circular : List Rule :=
  [.minimal "c" (some "n") ⟨some .function, none⟩ ⟨.leaf (.api "CreateFile"), none⟩,
    .minimal "q" none ⟨some .function, none⟩ ⟨.leaf (.matchedRule "n"), none⟩,
    .minimal "n" none ⟨some .function, none⟩ ⟨.leaf (.matchedRule "q"), none⟩]

/-- An accepted list and a sample whose document no depth is enough for: the evidence of `n` splices
    in that of `q`, whose leaf is resolved to the rule `n` again. -/
theorem circular_unbuilt :
    ∃ set caps, @MatchingRuleSet.new .empty circular = .ok set ∧ copyingSample.NoMatches ∧
      @findStaticCapabilities .empty set copyingSample .insertion = .ok caps ∧
      ∀ depth, ¬ Succeeds (buildResultDocument set caps.results .insertion depth) := by
  refine ⟨_, _, rfl, copyingSample_noMatches, rfl, fun depth h => ?_⟩
  have hcomp := buildResultDocument_succeeds.mp h "n" _ _ rfl rfl rfl _ List.mem_cons_self
  refine acyclic_of_acc (completes_acc hcomp) (.head (List.mem_cons_self) (.single ?_))
  exact List.mem_cons_self

/-- Where the rule of the name did not match, its match is missing: `A` asks for the namespace `n`
    and `B` matched, but the leaf is resolved to the rule `n`. -/
theorem namesakes_unbuilt :
    ∃ set caps, @MatchingRuleSet.new .empty namesakes = .ok set ∧
      @findStaticCapabilities .empty set copyingSample .insertion = .ok caps ∧
      ¬ LeavesFound set caps.results ∧
      buildResultDocument set caps.results .insertion 2 =
        .error (.failed (.missingRuleMatch "n" (.absolute 0x1000))) := by
  refine ⟨_, _, rfl, rfl, fun h => ?_, rfl⟩
  obtain ⟨res, hres, _⟩ := h "A" _ "n" ⟨_, rfl, _, List.mem_cons_self,
    MatchResult.self_mem_nodes _⟩ rfl rfl (.absolute 0x1000) List.mem_cons_self
  cases hres

end ResultDocument

end CapaX
