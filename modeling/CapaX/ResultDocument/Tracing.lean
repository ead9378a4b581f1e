import CapaX.Capabilities.StaticMeaning

/-
  Where the match features of a run come from. `Backed` says that every match feature of a set is
  at the addresses of recorded matches, and `Traced` that every recorded evidence tree was evaluated
  on such a set. Both go through the static driver when everything it finds on the way counts as
  recorded (`Held`), so that a successful match leaf of a recorded tree points at recorded matches
  (`findStaticCapabilities_traced`, `evaluate_evidence`). Nothing is asked of the rule names here.
-/

namespace CapaX

open Collections Control

/-! ## Evidence trees -/

mutual

/-- The nodes of an evidence tree. -/
def MatchResult.nodes : MatchResult → List MatchResult
  | ⟨success, node, description, locations, children, captures⟩ =>
    ⟨success, node, description, locations, children, captures⟩ :: MatchResult.nodesAll children

def MatchResult.nodesAll : List MatchResult → List MatchResult
  | [] => []
  | c :: cs => c.nodes ++ nodesAll cs

end

/-- What holds of a tree when it holds of its children holds of every tree. -/
@[elab_as_elim]
theorem MatchResult.induct {P : MatchResult → Prop} (h : ∀ m, (∀ c ∈ m.children, P c) → P m)
    (m : MatchResult) : P m :=
  @MatchResult.rec P (fun cs => ∀ c ∈ cs, P c) (fun _ _ _ _ _ _ ih => h _ ih)
    (fun _ h => absurd h List.not_mem_nil)
    (fun _ _ ihc ihcs _ h => (List.mem_cons.mp h).elim (fun e => e ▸ ihc) (ihcs _)) m

theorem MatchResult.mem_nodesAll {t : MatchResult} (cs : List MatchResult) :
    t ∈ nodesAll cs ↔ ∃ c ∈ cs, t ∈ c.nodes := by
  induction cs with
  | nil =>
    rw [nodesAll]
    exact iff_of_false List.not_mem_nil fun ⟨_, h, _⟩ => List.not_mem_nil h
  | cons c cs ih => rw [nodesAll, List.mem_append, ih, List.exists_mem_cons_iff]

theorem MatchResult.mem_nodes {t m : MatchResult} :
    t ∈ m.nodes ↔ t = m ∨ ∃ c ∈ m.children, t ∈ c.nodes := by
  obtain ⟨success, node, description, locations, children, captures⟩ := m
  rw [nodes, List.mem_cons, mem_nodesAll]

theorem MatchResult.self_mem_nodes (m : MatchResult) : m ∈ m.nodes :=
  mem_nodes.mpr (Or.inl rfl)

theorem MatchResult.nodes_trans {s t m : MatchResult} (hs : s ∈ m.nodes) (ht : t ∈ s.nodes) :
    t ∈ m.nodes := by
  induction m using MatchResult.induct with
  | h m ih =>
    rcases mem_nodes.mp hs with rfl | ⟨c, hc, hs⟩
    · exact ht
    · exact mem_nodes.mpr (Or.inr ⟨c, hc, ih c hc hs⟩)

theorem MatchResult.child_mem_nodes {s t m : MatchResult} (hs : s ∈ m.nodes)
    (ht : t ∈ s.children) : t ∈ m.nodes :=
  nodes_trans hs (mem_nodes.mpr (Or.inr ⟨t, ht, t.self_mem_nodes⟩))

theorem MatchResult.sizeOf_child {c m : MatchResult} (h : c ∈ m.children) : sizeOf c < sizeOf m := by
  obtain ⟨success, node, description, locations, children, captures⟩ := m
  have hlt : sizeOf c < sizeOf children := List.sizeOf_lt_of_mem h
  simp only [MatchResult.mk.sizeOf_spec]
  omega

/-- What a node of the evidence of a body says about the feature set. -/
structure Evidence (fs : FeatureSet) (n : Node) (t : MatchResult) : Prop where
  expanded : ∀ kind name, t.node ≠ .leaf (.com kind name)
  observed : ∀ v, t.node = .leaf (.matchedRule v) → v ∈ n.observed
  located : ∀ v, t.node = .leaf (.matchedRule v) → t.success = true →
    fs.Has v ∧ t.locations = fs.locations (.matchedRule v)

theorem Evidence.mono {fs : FeatureSet} {n c : Node} {t : MatchResult} (h : Evidence fs c t)
    (hc : ∀ v, v ∈ c.observed → v ∈ n.observed) : Evidence fs n t :=
  ⟨h.expanded, fun v hv => hc v (h.observed v hv), h.located⟩

theorem Evidence.of_statement {fs : FeatureSet} {n : Node} {t : MatchResult}
    (h : ∀ f, t.node ≠ .leaf f) : Evidence fs n t :=
  ⟨fun _ _ => h _, fun _ hv => absurd hv (h _), fun _ hv => absurd hv (h _)⟩

section

variable [RegexBackend] {fs : FeatureSet}

theorem evalAll_children {cs : List Node} {rs : List MatchResult}
    (h : evalAll fs cs = .ok rs) : ∀ r ∈ rs, ∃ c ∈ cs, evaluate fs false c = .ok r := by
  induction cs generalizing rs with
  | nil =>
    rw [← Except.ok.inj h]
    exact fun r hr => absurd hr List.not_mem_nil
  | cons c cs ih =>
    rw [evalAll] at h
    obtain ⟨r, hr, h⟩ := bind_eq_ok.mp h
    obtain ⟨rest, hrest, h⟩ := bind_eq_ok.mp h
    rw [← Except.ok.inj h]
    intro x hx
    rcases List.mem_cons.mp hx with rfl | hx
    · exact ⟨c, List.mem_cons_self, hr⟩
    · obtain ⟨c', hc', he⟩ := ih hrest x hx
      exact ⟨c', List.mem_cons_of_mem _ hc', he⟩

/-- The evidence of a leaf has the feature of the leaf, or it is an error. -/
theorem evalLeaf_evidence {f : Feature} {d : Option String} {m : MatchResult}
    (h : evalLeaf f fs false d = .ok m) :
    m.children = [] ∧ Evidence fs ⟨.leaf f, d⟩ m := by
  have hnode : ∀ {out : MatchResult}, out.node = .leaf f → out.children = [] →
      (∀ v, f ≠ .matchedRule v) → (∀ kind name, f ≠ .com kind name) →
        out.children = [] ∧ Evidence fs ⟨.leaf f, d⟩ out := by
    intro out hn hc hmatch hcom
    refine ⟨hc, ⟨fun kind name => ?_, fun v hv => ?_, fun v hv => ?_⟩⟩
    · rw [hn]
      exact fun he => hcom kind name (MatchedNode.leaf.inj he)
    · exact absurd (MatchedNode.leaf.inj (hn.symm.trans hv)) (hmatch v)
    · exact absurd (MatchedNode.leaf.inj (hn.symm.trans hv)) (hmatch v)
  have hfirst : ∀ p, (evalFirst f p fs d).node = .leaf f ∧ (evalFirst f p fs d).children = [] := by
    intro p
    unfold evalFirst
    split
    · exact ⟨rfl, rfl⟩
    · exact ⟨rfl, rfl⟩
  unfold evalLeaf at h
  split at h
  · obtain rfl := Except.ok.inj h
    exact hnode rfl rfl (fun v hv => by cases hv) fun k n hk => by cases hk
  · obtain rfl := Except.ok.inj h
    exact hnode rfl rfl (fun v hv => by cases hv) fun k n hk => by cases hk
  · obtain rfl := Except.ok.inj h
    exact hnode (hfirst _).1 (hfirst _).2 (fun v hv => by cases hv) fun k n hk => by cases hk
  · obtain rfl := Except.ok.inj h
    exact hnode (hfirst _).1 (hfirst _).2 (fun v hv => by cases hv) fun k n hk => by cases hk
  · cases h
  · next hcom =>
    obtain rfl := Except.ok.inj h
    unfold evalExact
    cases hget : fs.get? f with
    | none =>
      refine ⟨rfl, ⟨fun kind name he => ?_, fun v hv => ?_, fun v _ hs => nomatch hs⟩⟩
      · exact hcom kind name (MatchedNode.leaf.inj he)
      · obtain rfl := MatchedNode.leaf.inj hv
        exact Node.mem_observed_leaf.mpr rfl
    | some locs =>
      refine ⟨rfl, ⟨fun kind name he => ?_, fun v hv => ?_, fun v hv _ => ?_⟩⟩
      · exact hcom kind name (MatchedNode.leaf.inj he)
      · obtain rfl := MatchedNode.leaf.inj hv
        exact Node.mem_observed_leaf.mpr rfl
      · obtain rfl := MatchedNode.leaf.inj hv
        refine ⟨?_, ?_⟩
        · unfold FeatureSet.Has
          rw [hget]
          rfl
        · unfold FeatureSet.locations
          rw [hget]
          rfl

/-- What the nodes of an evidence tree say. -/
theorem evaluate_evidence {n : Node} {m : MatchResult} (h : evaluate fs false n = .ok m) :
    ∀ t ∈ m.nodes, Evidence fs n t := by
  have hall : ∀ {m : MatchResult} {n : Node} {cs : List Node} {rs : List MatchResult},
      (∀ f, m.node ≠ .leaf f) → m.children = rs → evalAll fs cs = .ok rs →
      (∀ c ∈ cs, ∀ v, v ∈ c.observed → v ∈ n.observed) →
      (∀ c ∈ cs, ∀ {m : MatchResult}, evaluate fs false c = .ok m →
        ∀ t ∈ m.nodes, Evidence fs c t) → ∀ t ∈ m.nodes, Evidence fs n t := by
    intro m n cs rs hnode hchildren hrs hobs ih t ht
    rcases MatchResult.mem_nodes.mp ht with rfl | ⟨r, hr, ht⟩
    · exact .of_statement hnode
    · obtain ⟨c, hc, he⟩ := evalAll_children hrs r (hchildren ▸ hr)
      exact (ih c hc he t ht).mono (hobs c hc)
  induction n using Node.induct generalizing m with
  | and cs d ih =>
    rw [evaluate] at h
    obtain ⟨rs, hrs, h⟩ := bind_eq_ok.mp h
    obtain rfl := Except.ok.inj h
    exact hall (fun f hf => by contradiction) rfl hrs
      (fun c hc v hv => Node.mem_observed_and.mpr ⟨c, hc, hv⟩) fun c hc m => ih c hc
  | or cs d ih =>
    rw [evaluate] at h
    obtain ⟨rs, hrs, h⟩ := bind_eq_ok.mp h
    obtain rfl := Except.ok.inj h
    exact hall (fun f hf => by contradiction) rfl hrs
      (fun c hc v hv => Node.mem_observed_or.mpr ⟨c, hc, hv⟩) fun c hc m => ih c hc
  | not c d ih =>
    rw [evaluate] at h
    obtain ⟨r, hr, h⟩ := bind_eq_ok.mp h
    obtain rfl := Except.ok.inj h
    intro t ht
    rcases MatchResult.mem_nodes.mp ht with rfl | ⟨r', hr', hmem⟩
    · exact .of_statement fun f hf => by contradiction
    · obtain rfl := List.mem_singleton.mp hr'
      exact (ih hr t hmem).mono fun v hv => Node.mem_observed_not.mpr hv
  | some n cs d ih =>
    rw [evaluate] at h
    obtain ⟨rs, hrs, h⟩ := bind_eq_ok.mp h
    obtain rfl := Except.ok.inj h
    exact hall (fun f hf => by contradiction) rfl hrs
      (fun c hc v hv => Node.mem_observed_some.mpr ⟨c, hc, hv⟩) fun c hc m => ih c hc
  | range f min max d =>
    rw [evaluate] at h
    obtain rfl := Except.ok.inj h
    have hnode : (evalRange f min max fs d).node = .range f min max ∧
        (evalRange f min max fs d).children = [] := by
      unfold evalRange
      dsimp only
      split
      · exact ⟨rfl, rfl⟩
      · exact ⟨rfl, rfl⟩
    intro t ht
    rcases MatchResult.mem_nodes.mp ht with rfl | ⟨r, hr, _⟩
    · exact .of_statement fun f hf => by rw [hnode.1] at hf; cases hf
    · rw [hnode.2] at hr
      exact absurd hr List.not_mem_nil
  | subscope s b d ih =>
    rw [evaluate] at h
    cases h
  | leaf f d =>
    rw [evaluate] at h
    obtain ⟨hchildren, hev⟩ := evalLeaf_evidence h
    intro t ht
    rcases MatchResult.mem_nodes.mp ht with rfl | ⟨r, hr, _⟩
    · exact hev
    · rw [hchildren] at hr
      exact absurd hr List.not_mem_nil

end

/-! ## Recorded matches -/

/-- Everything found counts as recorded. -/
def Held (rec : String → Address → Prop) (results : MatchResults) : Prop :=
  ∀ name res, results.get? name = some res → ∀ r ∈ res, rec name r.1

/-- Every match feature of the set is at the addresses of recorded matches of rules that publish
    it. -/
structure Backed (set : MatchingRuleSet) (rec : String → Address → Prop) (fs : FeatureSet) :
    Prop where
  placed : ∀ v, fs.Has v → ∃ a, a ∈ fs.locations (.matchedRule v)
  recorded : ∀ v a, a ∈ fs.locations (.matchedRule v) →
    ∃ name rule, set.get name = some rule ∧ v ∈ rule.published ∧ rec name a

/-- Every recorded evidence tree is that of its rule, evaluated on a backed set. -/
def Traced [RegexBackend] (set : MatchingRuleSet) (rec : String → Address → Prop)
    (results : MatchResults) : Prop :=
  ∀ name res, results.get? name = some res → res ≠ [] ∧ ∃ rule scope,
    set.get name = some rule ∧ rule.scopes.contains scope = true ∧
      ∀ r ∈ res, ∃ fs, Backed set rec fs ∧ evaluate fs false rule.body = .ok r.2

section

variable {set : MatchingRuleSet} {rec : String → Address → Prop} {fs other : FeatureSet}
  {into source : MatchResults} {order : IterOrder}

theorem Held.of_extend (h : Held rec (extendMatches order into source)) :
    Held rec into ∧ Held rec source := by
  constructor
  · intro name res hres r hr
    cases hs : source.get? name with
    | none =>
      refine h name res ?_ r hr
      rw [get?_extendMatches, hs]
      exact hres
    | some res' =>
      refine h name (res ++ res') ?_ r (List.mem_append_left _ hr)
      rw [get?_extendMatches, hs, hres]
      rfl
  · intro name res hres r hr
    refine h name ((into.get? name).getD [] ++ res) ?_ r (List.mem_append_right _ hr)
    rw [get?_extendMatches, hres]

theorem Traced.extend [RegexBackend] (hi : Traced set rec into) (hs : Traced set rec source) :
    Traced set rec (extendMatches order into source) := by
  intro name res hres
  rw [get?_extendMatches] at hres
  cases hsrc : source.get? name with
  | none =>
    rw [hsrc] at hres
    exact hi name res hres
  | some res' =>
    rw [hsrc] at hres
    obtain rfl := Option.some.inj hres
    obtain ⟨hne, rule, scope, hget, hscope, htraced⟩ := hs name res' hsrc
    refine ⟨by simp [hne], rule, scope, hget, hscope, fun r hr => ?_⟩
    rcases List.mem_append.mp hr with hr | hr
    · cases hinto : into.get? name with
      | none =>
        rw [hinto] at hr
        exact absurd hr List.not_mem_nil
      | some old =>
        rw [hinto] at hr
        obtain ⟨_, rule', _, hget', _, htraced'⟩ := hi name old hinto
        obtain rfl := Option.some.inj (hget.symm.trans hget')
        exact htraced' r hr
    · exact htraced r hr

theorem Traced.empty [RegexBackend] : Traced set rec ∅ := fun name res h => by
  rw [IndexMap.get?_empty] at h
  cases h

theorem Backed.empty : Backed set rec ∅ :=
  ⟨fun _ h => absurd h FeatureSet.not_has_empty, fun _ _ h =>
    absurd h FeatureSet.not_mem_locations_empty⟩

theorem Backed.mergeOwned (h : Backed set rec fs) (ho : Backed set rec other) :
    Backed set rec (fs.mergeOwned other) := by
  refine ⟨fun v hv => ?_, fun v a ha => ?_⟩
  · rcases FeatureSet.has_mergeOwned.mp hv with hv | hv
    · obtain ⟨a, ha⟩ := h.placed v hv
      exact ⟨a, FeatureSet.mem_locations_mergeOwned.mpr (Or.inl ha)⟩
    · obtain ⟨a, ha⟩ := ho.placed v hv
      exact ⟨a, FeatureSet.mem_locations_mergeOwned.mpr (Or.inr ha)⟩
  · rcases FeatureSet.mem_locations_mergeOwned.mp ha with ha | ha
    · exact h.recorded v a ha
    · exact ho.recorded v a ha

theorem Backed.seed (h : Backed set rec fs) {features : List Located} {globals : List Feature}
    (hf : ∀ e ∈ features, ∀ v, e.2 ≠ .matchedRule v) (hg : ∀ g ∈ globals, ∀ v, g ≠ .matchedRule v) :
    Backed set rec (CapaX.seed fs features globals) := by
  refine ⟨fun v hv => ?_, fun v a ha => ?_⟩
  · rcases has_seed.mp hv with hv | ⟨e, he, hev⟩ | hmem
    · obtain ⟨a, ha⟩ := h.placed v hv
      exact ⟨a, mem_locations_seed.mpr (Or.inl ha)⟩
    · exact absurd hev (hf e he v)
    · exact absurd rfl (hg _ hmem v)
  · rcases mem_locations_seed.mp ha with ha | ⟨e, he, hev, _⟩ | ⟨g, hmem, hgv, _⟩
    · exact h.recorded v a ha
    · exact absurd (Feature.matchedRule_beq_iff.mp (BEq.symm hev)) (hf e he v)
    · exact absurd (Feature.matchedRule_beq_iff.mp (BEq.symm hgv)) (hg g hmem v)

theorem Backed.publish (h : Backed set rec fs) {name : String} {rule : Rule} {addr : Address}
    (hget : set.get name = some rule) (hrec : rec name addr) :
    Backed set rec (fs.publish rule.published (.singleton addr)) := by
  refine ⟨fun v hv => ?_, fun v a ha => ?_⟩
  · rcases FeatureSet.has_publish.mp hv with hv | hv
    · obtain ⟨a, ha⟩ := h.placed v hv
      exact ⟨a, FeatureSet.mem_locations_publish.mpr (Or.inl ha)⟩
    · exact ⟨addr, FeatureSet.mem_locations_publish.mpr
        (Or.inr ⟨⟨v, hv, rfl⟩, OrdSet.mem_singleton.mpr rfl⟩)⟩
  · rcases FeatureSet.mem_locations_publish.mp ha with ha | ⟨⟨v', hv, he⟩, ha⟩
    · exact h.recorded v a ha
    · obtain rfl := Feature.matchedRule.inj he
      rw [OrdSet.mem_singleton.mp ha]
      exact ⟨name, rule, hget, hv, hrec⟩

theorem Backed.promoteMatches (h : Backed set rec fs) {results : MatchResults}
    (hh : Held rec results) : Backed set rec (CapaX.promoteMatches set order fs results) := by
  refine ⟨fun v hv => ?_, fun v a ha => ?_⟩
  · rcases has_promoteMatches.mp hv with hv | ⟨name, res, rule, hres, hne, hget, hp⟩
    · obtain ⟨a, ha⟩ := h.placed v hv
      exact ⟨a, mem_locations_promoteMatches.mpr (Or.inl ha)⟩
    · obtain ⟨r, hr⟩ := List.exists_mem_of_ne_nil res hne
      exact ⟨r.1, mem_locations_promoteMatches.mpr
        (Or.inr ⟨name, res, rule, hres, hget, ⟨v, hp, rfl⟩, r, hr, rfl⟩)⟩
  · rcases mem_locations_promoteMatches.mp ha with
      ha | ⟨name, res, rule, hres, hget, ⟨v', hv, he⟩, r, hr, rfl⟩
    · exact h.recorded v a ha
    · obtain rfl := Feature.matchedRule.inj he
      exact ⟨name, rule, hget, hv, hh name res hres r hr⟩

end

/-! ## The static driver -/

section

variable [ComDatabase] [RegexBackend] {rules : List Rule} {set : MatchingRuleSet}
  {rec : String → Address → Prop}

omit [RegexBackend] in
theorem get_of_mem_rulesForScope (hset : MatchingRuleSet.new rules = .ok set) {scope : Scope}
    {rule : Rule} (h : rule ∈ set.rulesForScope scope) :
    set.get rule.name = some rule ∧ rule.scopes.contains scope = true := by
  obtain ⟨_, es, _, rfl⟩ := MatchingRuleSet.new_ok hset
  refine ⟨?_, (MatchingRuleSet.mem_rulesForScope_ofExpanded h).2.1⟩
  obtain ⟨name, _, hrule⟩ := List.mem_filterMap.mp h
  have hname : rule.name = name := (indexByName_some hrule).2
  rw [hname]
  exact hrule

theorem matchScopeResults_traced (hset : MatchingRuleSet.new rules = .ok set) {scope : Scope}
    {fs : FeatureSet} {addr : Address} {results : MatchResults} (hb : Backed set rec fs)
    (hrun : set.matchScopeResults scope fs addr = .ok results) (hheld : Held rec results) :
    Traced set rec results := by
  obtain ⟨out, hfold, rfl⟩ := (matchScopeResults_ok hset).mp hrun
  refine ((foldlM_within (P := fun acc => Backed set rec acc.1 ∧ Traced set rec acc.2)
    (Q := fun acc => Held rec acc.2) hfold ?_ ?_ hheld).2 ⟨hb, .empty⟩).2
  · intro rule _ acc acc' hstep hacc' name res hres r hr
    rcases matchRule_cases hstep with ⟨_, rfl⟩ | ⟨_, full, _, rfl⟩
    · exact hacc' name res hres r hr
    · by_cases hname : rule.name = name
      · subst hname
        refine hacc' rule.name (res ++ [(addr, full)]) ?_ r (List.mem_append_left _ hr)
        rw [IndexMap.get?_upsert, if_pos (beq_self_eq_true _), hres]
        rfl
      · refine hacc' name res ?_ r hr
        rw [IndexMap.get?_upsert, if_neg fun h => hname (eq_of_beq h)]
        exact hres
  · intro rule hrule acc acc' hstep hacc' ⟨hback, htraced⟩
    rcases matchRule_cases hstep with ⟨_, rfl⟩ | ⟨_, full, hfull, rfl⟩
    · exact ⟨hback, htraced⟩
    · obtain ⟨hget, hscope⟩ := get_of_mem_rulesForScope hset hrule
      have hentry : (acc.2.upsert rule.name fun o => o.getD [] ++ [(addr, full)]).get? rule.name =
          some ((acc.2.get? rule.name).getD [] ++ [(addr, full)]) := by
        rw [IndexMap.get?_upsert, if_pos (beq_self_eq_true _)]
      have hrec : rec rule.name addr := hacc' rule.name _ hentry (addr, full) (by simp)
      refine ⟨hback.publish hget hrec, fun name res hres => ?_⟩
      by_cases hname : rule.name = name
      · subst hname
        obtain rfl := Option.some.inj (hentry.symm.trans hres)
        refine ⟨by simp, rule, scope, hget, hscope, fun r hr => ?_⟩
        rcases List.mem_append.mp hr with hr | hr
        · cases hold : acc.2.get? rule.name with
          | none =>
            rw [hold] at hr
            exact absurd hr List.not_mem_nil
          | some old =>
            rw [hold] at hr
            obtain ⟨_, rule', _, hget', _, hall⟩ := htraced rule.name old hold
            obtain rfl := Option.some.inj (hget.symm.trans hget')
            exact hall r hr
        · rw [List.mem_singleton.mp hr]
          exact ⟨acc.1, hback, hfull⟩
      · rw [IndexMap.get?_upsert, if_neg fun h => hname (eq_of_beq h)] at hres
        exact htraced name res hres

variable {globals : List Feature}

theorem findInstructionCapabilities_traced (hset : MatchingRuleSet.new rules = .ok set)
    (hglobals : ∀ g ∈ globals, ∀ v, g ≠ .matchedRule v) {order : IterOrder} {addr : Address}
    {insn : InstructionFeatures} (hown : NoMatch insn.features)
    {out : FeatureSet × MatchResults}
    (hrun : findInstructionCapabilities set order addr insn globals = .ok out)
    (hheld : Held rec out.2) : Backed set rec out.1 ∧ Traced set rec out.2 := by
  obtain ⟨results, hmatch, hrun⟩ := bind_eq_ok.mp hrun
  obtain rfl := Except.ok.inj hrun
  have hb : Backed set rec (seed ∅ insn.features globals) := Backed.empty.seed hown hglobals
  exact ⟨hb.promoteMatches hheld, matchScopeResults_traced hset hb hmatch hheld⟩

theorem findBasicBlockCapabilities_traced (hset : MatchingRuleSet.new rules = .ok set)
    (hglobals : ∀ g ∈ globals, ∀ v, g ≠ .matchedRule v) {orders : BasicBlockOrders}
    {addr : Address} {bb : BasicBlockFeatures} (hown : NoMatch bb.features)
    (hinsns : ∀ i ∈ bb.instructions.entries, NoMatch i.2.features)
    {out : FeatureSet × MatchResults × MatchResults}
    (hrun : findBasicBlockCapabilities set orders addr bb globals = .ok out)
    (hbb : Held rec out.2.1) (hinsn : Held rec out.2.2) :
    Backed set rec out.1 ∧ Traced set rec out.2.1 ∧ Traced set rec out.2.2 := by
  obtain ⟨acc, hloop, hrun⟩ := bind_eq_ok.mp hrun
  obtain ⟨results, hmatch, hrun⟩ := bind_eq_ok.mp hrun
  obtain rfl := Except.ok.inj hrun
  have hturn : Backed set rec acc.1 ∧ Traced set rec acc.2 := by
    refine (foldlM_within (P := fun acc => Backed set rec acc.1 ∧ Traced set rec acc.2)
      (Q := fun acc => Held rec acc.2) hloop ?_ ?_ hinsn).2 ⟨.empty, .empty⟩
    · intro e _ acc acc' hvisit hacc'
      obtain ⟨found, _, hvisit⟩ := bind_eq_ok.mp hvisit
      obtain rfl := Except.ok.inj hvisit
      exact hacc'.of_extend.1
    · intro e he acc acc' hvisit hacc' ⟨hb, ht⟩
      obtain ⟨found, hfind, hvisit⟩ := bind_eq_ok.mp hvisit
      obtain rfl := Except.ok.inj hvisit
      obtain ⟨hbf, htf⟩ := findInstructionCapabilities_traced hset hglobals (hinsns e he) hfind
        hacc'.of_extend.2
      exact ⟨hb.mergeOwned hbf, ht.extend htf⟩
  have hb : Backed set rec (seed acc.1 bb.features globals) := hturn.1.seed hown hglobals
  exact ⟨hb.promoteMatches hbb, matchScopeResults_traced hset hb hmatch hbb, hturn.2⟩

theorem findCodeCapabilities_traced (hset : MatchingRuleSet.new rules = .ok set)
    (hglobals : ∀ g ∈ globals, ∀ v, g ≠ .matchedRule v) {orders : FunctionOrders}
    {addr : Address} {func : FunctionFeatures} (hown : NoMatch func.features)
    (hblocks : ∀ b ∈ func.basicBlocks.entries, NoMatch b.2.features)
    (hinsns : ∀ b ∈ func.basicBlocks.entries, ∀ i ∈ b.2.instructions.entries, NoMatch i.2.features)
    {c : CodeCapabilities} (hrun : findCodeCapabilities set orders addr func globals = .ok c)
    (hf : Held rec c.functionMatches) (hb : Held rec c.basicBlockMatches)
    (hi : Held rec c.instructionMatches) :
    Traced set rec c.functionMatches ∧ Traced set rec c.basicBlockMatches ∧
      Traced set rec c.instructionMatches := by
  obtain ⟨acc, hloop, hrun⟩ := bind_eq_ok.mp hrun
  obtain ⟨results, hmatch, hrun⟩ := bind_eq_ok.mp hrun
  obtain rfl := Except.ok.inj hrun
  have hturn : Backed set rec acc.1 ∧ Traced set rec acc.2.1 ∧ Traced set rec acc.2.2 := by
    refine (foldlM_within
      (P := fun acc => Backed set rec acc.1 ∧ Traced set rec acc.2.1 ∧ Traced set rec acc.2.2)
      (Q := fun acc => Held rec acc.2.1 ∧ Held rec acc.2.2) hloop ?_ ?_ ⟨hb, hi⟩).2
      ⟨.empty, .empty, .empty⟩
    · intro e _ acc acc' hvisit hacc'
      obtain ⟨found, _, hvisit⟩ := bind_eq_ok.mp hvisit
      obtain rfl := Except.ok.inj hvisit
      exact ⟨hacc'.1.of_extend.1, hacc'.2.of_extend.1⟩
    · intro e he acc acc' hvisit hacc' ⟨hb, htb, hti⟩
      obtain ⟨found, hfind, hvisit⟩ := bind_eq_ok.mp hvisit
      obtain rfl := Except.ok.inj hvisit
      obtain ⟨hbf, htbf, htif⟩ := findBasicBlockCapabilities_traced hset hglobals (hblocks e he)
        (hinsns e he) hfind hacc'.1.of_extend.2 hacc'.2.of_extend.2
      exact ⟨hb.mergeOwned hbf, htb.extend htbf, hti.extend htif⟩
  exact ⟨matchScopeResults_traced hset (hturn.1.seed hown hglobals) hmatch hf, hturn.2.1, hturn.2.2⟩

/-- Everything found in the functions counts as recorded. -/
structure CodeMatches.Held (rec : String → Address → Prop) (all : CodeMatches) : Prop where
  function : CapaX.Held rec all.function
  basicBlock : CapaX.Held rec all.basicBlock
  instruction : CapaX.Held rec all.instruction

structure CodeMatches.Traced (set : MatchingRuleSet) (rec : String → Address → Prop)
    (all : CodeMatches) : Prop where
  function : CapaX.Traced set rec all.function
  basicBlock : CapaX.Traced set rec all.basicBlock
  instruction : CapaX.Traced set rec all.instruction

omit [ComDatabase] in
theorem joinFunction_traced {orders : StaticOrders} {l : List (Address × CodeCapabilities)}
    (hl : ∀ e ∈ l, CapaX.Held rec e.2.functionMatches → CapaX.Held rec e.2.basicBlockMatches →
      CapaX.Held rec e.2.instructionMatches → CapaX.Traced set rec e.2.functionMatches ∧
        CapaX.Traced set rec e.2.basicBlockMatches ∧ CapaX.Traced set rec e.2.instructionMatches)
    {acc : CodeMatches} (hheld : (l.foldl (joinFunction orders) acc).Held rec) :
    acc.Held rec ∧ (acc.Traced set rec → (l.foldl (joinFunction orders) acc).Traced set rec) := by
  induction l generalizing acc with
  | nil => exact ⟨hheld, id⟩
  | cons e l ih =>
    obtain ⟨hnext, htraced⟩ := ih (fun x hx => hl x (List.mem_cons_of_mem _ hx)) hheld
    obtain ⟨haf, hef⟩ := hnext.function.of_extend
    obtain ⟨hab, heb⟩ := hnext.basicBlock.of_extend
    obtain ⟨hai, hei⟩ := hnext.instruction.of_extend
    obtain ⟨hf, hb, hi⟩ := hl e List.mem_cons_self hef heb hei
    exact ⟨⟨haf, hab, hai⟩, fun hacc =>
      htraced ⟨hacc.function.extend hf, hacc.basicBlock.extend hb, hacc.instruction.extend hi⟩⟩

omit [ComDatabase] in
/-- The file is handed a backed set. -/
theorem fileInput_backed {freeze : StaticFeatures} (hfree : freeze.NoMatches)
    {orders : StaticOrders} {all : CodeMatches} (hheld : all.Held rec) (hall : all.Traced set rec) :
    Backed set rec ((seedFile freeze.fileFeatures freeze.globalFeatures).merge
      (functionAndLowerFeatures set orders all)) := by
  have hentry : ∀ {name : String} {res : List (Address × MatchResult)},
      all.instruction.get? name = some res ∨ all.basicBlock.get? name = some res ∨
        all.function.get? name = some res → res ≠ [] ∧ ∀ r ∈ res, rec name r.1 := by
    rintro name res (hres | hres | hres)
    · exact ⟨(hall.instruction name res hres).1, hheld.instruction name res hres⟩
    · exact ⟨(hall.basicBlock name res hres).1, hheld.basicBlock name res hres⟩
    · exact ⟨(hall.function name res hres).1, hheld.function name res hres⟩
  refine ⟨fun v hv => ?_, fun v a ha => ?_⟩
  · rw [FeatureSet.has_merge, or_iff_right (not_has_seedFile hfree v), functionAndLowerFeatures,
      has_publishMatches] at hv
    obtain ⟨name, res, rule, he, hget, hp⟩ := hv
    obtain ⟨r, hr⟩ := List.exists_mem_of_ne_nil res (hentry (mem_lowerEntries.mp he)).1
    refine ⟨r.1, FeatureSet.mem_locations_merge.mpr (Or.inr ?_)⟩
    exact mem_locations_publishMatches.mpr ⟨name, res, rule, he, hget, hp, r, hr, rfl⟩
  · rcases FeatureSet.mem_locations_merge.mp ha with ha | ha
    · obtain ⟨locs, hget, _⟩ := FeatureSet.mem_locations_iff.mp ha
      refine absurd ?_ (not_has_seedFile hfree v)
      unfold FeatureSet.Has
      rw [hget]
      rfl
    · obtain ⟨name, res, rule, he, hget, hp, r, hr, rfl⟩ := mem_locations_publishMatches.mp ha
      exact ⟨name, rule, hget, hp, (hentry (mem_lowerEntries.mp he)).2 r hr⟩

omit [ComDatabase] [RegexBackend] in
theorem mem_zip_of_forall₂ {α β γ : Type} {R : α → β → Prop} {f : α → γ} {l : List α} {l' : List β}
    (h : List.Forall₂ R l l') : ∀ p ∈ (l.map f).zip l', ∃ a ∈ l, R a p.2 := by
  induction h with
  | nil => exact fun p hp => absurd hp List.not_mem_nil
  | cons hab _ ih =>
    intro p hp
    rw [List.map_cons, List.zip_cons_cons] at hp
    rcases List.mem_cons.mp hp with rfl | hp
    · exact ⟨_, List.mem_cons_self, hab⟩
    · obtain ⟨a, ha, hr⟩ := ih p hp
      exact ⟨a, List.mem_cons_of_mem _ ha, hr⟩

/-- A match of the name is recorded at the address. -/
def Recorded (results : MatchResults) (name : String) (a : Address) : Prop :=
  ∃ res, results.get? name = some res ∧ ∃ r ∈ res, r.1 = a

/-- Whatever a run records was evaluated on features whose matches are recorded. -/
theorem findStaticCapabilities_traced (hset : MatchingRuleSet.new rules = .ok set)
    {freeze : StaticFeatures} (hfree : freeze.NoMatches) {orders : StaticOrders}
    {caps : StaticCapabilities} (hrun : findStaticCapabilities set freeze orders = .ok caps) :
    Traced set (Recorded caps.results) caps.results := by
  have hself : Held (Recorded caps.results) caps.results :=
    fun name res hres r hr => ⟨res, hres, r, hr, rfl⟩
  obtain ⟨cs, results, hcs, hmatch, hresults⟩ := findStaticCapabilities_ok hrun
  rw [hresults] at hself ⊢
  obtain ⟨hlower, hfileHeld⟩ := hself.of_extend
  obtain ⟨hlower, hfunction⟩ := hlower.of_extend
  obtain ⟨hlower, hbasicBlock⟩ := hlower.of_extend
  obtain ⟨_, hinstruction⟩ := hlower.of_extend
  have hheld := CodeMatches.Held.mk hfunction hbasicBlock hinstruction
  have hcode := mem_zip_of_forall₂ (f := fun e : Address × FunctionFeatures => e.1) hcs
  have hempty : ∀ {rec : String → Address → Prop}, CodeMatches.Traced set rec ⟨∅, ∅, ∅⟩ :=
    ⟨.empty, .empty, .empty⟩
  have hall := (joinFunction_traced (fun e he hf hb hi => by
    obtain ⟨func, hfunc, hc⟩ := hcode e he
    exact findCodeCapabilities_traced hset hfree.globals (hfree.function func hfunc)
      (hfree.basicBlock func hfunc) (hfree.instruction func hfunc) hc hf hb hi)
    hheld).2 hempty
  have hfiles := matchScopeResults_traced hset (fileInput_backed hfree hheld hall) hmatch hfileHeld
  exact (((Traced.empty.extend hall.instruction).extend hall.basicBlock).extend
    hall.function).extend hfiles

end

end CapaX
