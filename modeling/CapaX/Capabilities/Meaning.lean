import CapaX.Capabilities.Extraction
import CapaX.Engine.FeatureSets
import Mathlib.Data.List.Count

/-
  What rules mean, apart from how they are matched. A `Hierarchy` has units of code one inside
  the other, each with a scope, an address and features. `Hierarchy.holds` is the meaning of a
  body at a unit, with its subscopes in place: a subscope holds when its body holds at a unit of
  its kind inside, or at the unit itself; a match leaf holds when a rule of that name or namespace
  matches at the unit or inside; everything else is evaluated on the features of the unit.

  `Rule.matchesAt` is the meaning of the rules of a list together. The rules an accepted list is
  made of depend on each other without a cycle, so the equation one would write down holds
  (`matchesAt_eq`).
-/

namespace CapaX

open Collections Node

/-- Units of code, one inside the other. -/
structure Hierarchy (υ : Type) where
  scope : υ → Scope
  addr : υ → Address
  /-- the units strictly inside -/
  inside : υ → List υ
  /-- the features of a unit and of everything inside, without matches -/
  features : υ → FeatureSet

namespace Hierarchy

variable {υ : Type} (H : Hierarchy υ)

/-- A unit and the units inside it. -/
def within (u : υ) : List υ := u :: H.inside u

/-- The addresses of the units in a list at which a match value is matched. -/
def matchAddresses (matched : String → υ → Bool) (us : List υ) (v : String) : OrdSet Address :=
  .ofList ((us.filter (matched v)).map H.addr)

section

variable [ComDatabase] [RegexBackend]

/-- A COM leaf holds when one of the leaves it stands for does. -/
def comHolds (fs : FeatureSet) (kind : ComKind) (name : String) : Bool :=
  match translateComFeature name kind with
  | .ok stmt => Node.reads fs.reading ⟨stmt, none⟩
  | .error _ => false

def leafAt (matched : String → υ → Bool) (u : υ) : Feature → Bool
  | .matchedRule v => (H.within u).any (matched v)
  | .com kind name => comHolds (H.features u) kind name
  | f => leafHolds (H.features u) f

/-- The number of locations a count looks at; for a match these are the addresses of the units. -/
def countAt (matched : String → υ → Bool) (u : υ) : Feature → UInt32
  | .matchedRule v => UInt32.ofNat (H.matchAddresses matched (H.within u) v).card
  | f => locationCount (H.features u) f

mutual

/-- A body holds at a unit. -/
def holds (matched : String → υ → Bool) : Node → υ → Bool
  | ⟨.and cs, _⟩, u => (holdsAll matched cs u).all id
  | ⟨.or cs, _⟩, u => (holdsAll matched cs u).any id
  | ⟨.not c, _⟩, u => !holds matched c u
  | ⟨.some n cs, _⟩, u => quorum n (holdsAll matched cs u)
  | ⟨.range f min max, _⟩, u => inRange (H.countAt matched u f) min max
  | ⟨.subscope s b, _⟩, u =>
    (H.within u).any fun u' => decide (H.scope u' = s) && holds matched b u'
  | ⟨.leaf f, _⟩, u => H.leafAt matched u f

def holdsAll (matched : String → υ → Bool) : List Node → υ → List Bool
  | [], _ => []
  | c :: cs, u => holds matched c u :: holdsAll matched cs u

end

/-- The meaning of a body at one unit is a reading of it. -/
def reading (matched : String → υ → Bool) (u : υ) : Reading where
  leaf := H.leafAt matched u
  range f min max := inRange (H.countAt matched u f) min max
  subscope s b := (H.within u).any fun u' => decide (H.scope u' = s) && H.holds matched b u'
  some := quorum

variable {H} {matched matched' : String → υ → Bool}

theorem holdsAll_eq (cs : List Node) (u : υ) :
    H.holdsAll matched cs u = cs.map fun c => H.holds matched c u := by
  induction cs with
  | nil => rfl
  | cons c cs ih => rw [holdsAll, ih, List.map_cons]

theorem holds_eq_reads (n : Node) (u : υ) :
    H.holds matched n u = n.reads (H.reading matched u) := by
  have hall : ∀ cs : List Node,
      (∀ c ∈ cs, H.holds matched c u = c.reads (H.reading matched u)) →
      H.holdsAll matched cs u = Node.readsAll (H.reading matched u) cs := by
    intro cs ih
    rw [holdsAll_eq, Node.readsAll_eq]
    exact List.map_congr_left ih
  induction n using Node.induct with
  | and cs d ih => rw [holds, Node.reads, hall cs ih]
  | or cs d ih => rw [holds, Node.reads, hall cs ih]
  | not c d ih => rw [holds, Node.reads, ih]
  | some k cs d ih =>
    rw [holds, Node.reads, hall cs ih]
    rfl
  | range f min max d =>
    rw [holds, Node.reads]
    rfl
  | subscope s b d ih =>
    rw [holds, Node.reads]
    rfl
  | leaf f d =>
    rw [holds, Node.reads]
    rfl

omit [ComDatabase] [RegexBackend] in
theorem matchAddresses_congr {us : List υ} {v : String}
    (h : ∀ u ∈ us, matched v u = matched' v u) :
    H.matchAddresses matched us v = H.matchAddresses matched' us v := by
  unfold matchAddresses
  rw [List.filter_congr h]

theorem leafAt_congr {u : υ} {f : Feature}
    (h : ∀ v, f = .matchedRule v → ∀ u', matched v u' = matched' v u') :
    H.leafAt matched u f = H.leafAt matched' u f := by
  cases f with
  | matchedRule v =>
    have hv : matched v = matched' v := funext (h v rfl)
    rw [leafAt, leafAt, hv]
  | _ => rfl

omit [ComDatabase] [RegexBackend] in
theorem countAt_congr {u : υ} {f : Feature}
    (h : ∀ v, f = .matchedRule v → ∀ u', matched v u' = matched' v u') :
    H.countAt matched u f = H.countAt matched' u f := by
  cases f with
  | matchedRule v =>
    rw [countAt, countAt, matchAddresses_congr fun u' _ => h v rfl u']
  | _ => rfl

/-- The meaning of a body depends on the match values it looks at. -/
theorem holds_congr {n : Node} (h : ∀ v ∈ n.observed, ∀ u, matched v u = matched' v u) (u : υ) :
    H.holds matched n u = H.holds matched' n u := by
  induction n using Node.induct generalizing u with
  | and cs d ih =>
    have hcs : H.holdsAll matched cs u = H.holdsAll matched' cs u := by
      rw [holdsAll_eq, holdsAll_eq]
      exact List.map_congr_left fun c hc =>
        ih c hc (fun v hv => h v (mem_observed_and.mpr ⟨c, hc, hv⟩)) u
    rw [holds, holds, hcs]
  | or cs d ih =>
    have hcs : H.holdsAll matched cs u = H.holdsAll matched' cs u := by
      rw [holdsAll_eq, holdsAll_eq]
      exact List.map_congr_left fun c hc =>
        ih c hc (fun v hv => h v (mem_observed_or.mpr ⟨c, hc, hv⟩)) u
    rw [holds, holds, hcs]
  | not c d ih =>
    rw [holds, holds, ih fun v hv => h v (mem_observed_not.mpr hv)]
  | some k cs d ih =>
    have hcs : H.holdsAll matched cs u = H.holdsAll matched' cs u := by
      rw [holdsAll_eq, holdsAll_eq]
      exact List.map_congr_left fun c hc =>
        ih c hc (fun v hv => h v (mem_observed_some.mpr ⟨c, hc, hv⟩)) u
    rw [holds, holds, hcs]
  | range f min max d =>
    rw [holds, holds, countAt_congr fun v hv => h v (mem_observed_range.mpr hv)]
  | subscope s b d ih =>
    have hb : ∀ u', H.holds matched b u' = H.holds matched' b u' :=
      ih fun v hv => h v (mem_observed_subscope.mpr hv)
    rw [holds, holds]
    simp only [hb]
  | leaf f d =>
    rw [holds, holds, leafAt_congr fun v hv => h v (mem_observed_leaf.mpr hv)]

/-! ## What the expansion of a rule keeps -/

/-- Expanding the COM leaves of a body keeps its meaning. -/
theorem holds_expandComNode {n n' : Node} (h : expandComNode n = .ok n') (u : υ) :
    H.holds matched n' u = H.holds matched n u := by
  have hlist : ∀ (u : υ) {cs cs' : List Node},
      (∀ c ∈ cs, ∀ {c'}, expandComNode c = .ok c' → H.holds matched c' u = H.holds matched c u) →
      expandComChildren cs = .ok cs' → H.holdsAll matched cs' u = H.holdsAll matched cs u := by
    intro u cs cs' ih h
    induction cs generalizing cs' with
    | nil =>
      obtain rfl : [] = cs' := Except.ok.inj h
      rfl
    | cons c cs ihcs =>
      obtain ⟨c', hc, h⟩ := Control.bind_eq_ok.mp h
      obtain ⟨cs'', hcs, h⟩ := Control.bind_eq_ok.mp h
      obtain rfl := Except.ok.inj h
      rw [holdsAll, holdsAll, ih c List.mem_cons_self hc,
        ihcs (fun x hx => ih x (List.mem_cons_of_mem _ hx)) hcs]
  induction n using Node.induct generalizing n' u with
  | and cs d ih =>
    obtain ⟨cs', hcs, h⟩ := Control.bind_eq_ok.mp h
    obtain rfl := Except.ok.inj h
    rw [holds, holds, hlist u (fun c hc _ hc' => ih c hc hc' u) hcs]
  | or cs d ih =>
    obtain ⟨cs', hcs, h⟩ := Control.bind_eq_ok.mp h
    obtain rfl := Except.ok.inj h
    rw [holds, holds, hlist u (fun c hc _ hc' => ih c hc hc' u) hcs]
  | some k cs d ih =>
    obtain ⟨cs', hcs, h⟩ := Control.bind_eq_ok.mp h
    obtain rfl := Except.ok.inj h
    rw [holds, holds, hlist u (fun c hc _ hc' => ih c hc hc' u) hcs]
  | not c d ih =>
    obtain ⟨c', hc, h⟩ := Control.bind_eq_ok.mp h
    obtain rfl := Except.ok.inj h
    rw [holds, holds, ih hc]
  | range f min max d =>
    obtain rfl := Except.ok.inj h
    rfl
  | subscope s b d ih =>
    obtain ⟨b', hb, h⟩ := Control.bind_eq_ok.mp h
    obtain rfl := Except.ok.inj h
    rw [holds, holds]
    simp only [ih hb]
  | leaf f d =>
    by_cases hf : ∀ kind name, f ≠ .com kind name
    · rw [expandComNode_leaf hf] at h
      obtain rfl := Except.ok.inj h
      rfl
    · obtain ⟨kind, name, rfl⟩ : ∃ kind name, f = .com kind name := by
        by_contra hn
        exact hf fun kind name h => hn ⟨kind, name, h⟩
      obtain ⟨stmt, hs, h⟩ := Control.bind_eq_ok.mp h
      obtain ⟨children, rfl, hg⟩ := translateComFeature_ok hs
      obtain rfl := Except.ok.inj h
      -- the leaves of the disjunction are no match leaves, so both sides read them alike
      have hleaves : ∀ c ∈ children,
          c.reads (H.reading matched u) = c.reads (H.features u).reading := by
        intro c hc
        obtain ⟨d', ⟨v, rfl⟩ | ⟨v, rfl⟩⟩ := hg c hc
        · rw [reads_leaf, reads_leaf]
          rfl
        · rw [reads_leaf, reads_leaf]
          rfl
      rw [holds_eq_reads, holds, leafAt, comHolds, hs]
      show _ = Node.reads (H.features u).reading ⟨.or children, none⟩
      rw [Node.reads, Node.reads, readsAll_eq, readsAll_eq, List.map_congr_left hleaves]

/-- The order of the children says nothing. -/
theorem holds_optimizeNode (n : Node) (u : υ) :
    H.holds matched (optimizeNode n) u = H.holds matched n u := by
  have hperm : ∀ (u : υ) (cs : List Node),
      (∀ c ∈ cs, H.holds matched (optimizeNode c) u = H.holds matched c u) →
      (H.holdsAll matched (sortByCost (optimizeChildren cs)) u).Perm
        (H.holdsAll matched cs u) := by
    intro u cs ih
    have h := (sortByCost_perm cs).map fun c => H.holds matched c u
    rw [List.map_map] at h
    rw [holdsAll_eq, holdsAll_eq, ← List.map_congr_left ih]
    exact h
  induction n using Node.induct generalizing u with
  | and cs d ih =>
    rw [optimizeNode, holds, holds]
    exact (hperm u cs fun c hc => ih c hc u).all_eq
  | or cs d ih =>
    rw [optimizeNode, holds, holds]
    exact (hperm u cs fun c hc => ih c hc u).any_eq
  | some k cs d ih =>
    have h := hperm u cs fun c hc => ih c hc u
    rw [optimizeNode, holds, holds, quorum, quorum, h.count_eq true, h.isEmpty_eq]
  | not c d ih => rw [optimizeNode, holds, holds, ih]
  | subscope s b d ih =>
    rw [optimizeNode, holds, holds]
    simp only [ih]
  | range f min max d => rfl
  | leaf f d => rfl

/-- Taking the subscopes out of a body keeps its meaning, when the new names stand for them. -/
theorem holds_extract {ruleName : String} {n : Node} {st : Extraction}
    (hnames : ∀ e ∈ named ruleName st.counter n.topSubscopes, ∀ u,
      matched' e.1 u = (decide (H.scope u = e.2.1) && H.holds matched e.2.2 u))
    (hsame : ∀ v ∈ n.observed, ∀ u, matched' v u = matched v u) (u : υ) :
    H.holds matched' (extractSingleChild ruleName n st).1 u = H.holds matched n u := by
  rw [holds_eq_reads, holds_eq_reads]
  refine extract_reads ?_ ?_ ?_ rfl
  · intro e he
    have hany : (H.within u).any (matched' e.1) = (H.within u).any fun u' =>
        decide (H.scope u' = e.2.1) && H.holds matched e.2.2 u' := by
      rw [funext (hnames e he)]
    exact hany
  · intro f hf
    exact leafAt_congr fun v hv => hsame v (hf v hv)
  · intro f min max hf
    show inRange (H.countAt matched' u f) min max = inRange (H.countAt matched u f) min max
    rw [countAt_congr fun v hv => hsame v (hf v hv)]

/-! ## The rules of a list together -/

variable (H)

omit [ComDatabase] [RegexBackend] in
/-- Some rule of the name or namespace `v` matches at the unit, by `truth`. -/
def matchedBy (rules : List Rule) (truth : Rule → υ → Bool) (v : String) (u : υ) : Bool :=
  rules.any fun r => decide (v ∈ r.published) && truth r u

/-- `r` matches at a unit of one of its scopes where its body holds; `fuel` bounds how often a
    match leaf leads to another rule. -/
def truth (rules : List Rule) : Nat → Rule → υ → Bool
  | 0, _, _ => false
  | fuel + 1, r, u =>
    r.scopes.contains (H.scope u) && H.holds (matchedBy rules (truth rules fuel)) r.body u

end

end Hierarchy

/-- `r`, of the rules `rules`, matches at the unit `u`. -/
def Rule.matchesAt {υ : Type} [ComDatabase] [RegexBackend] (H : Hierarchy υ) (rules : List Rule)
    (r : Rule) (u : υ) : Bool := H.truth rules rules.length r u

/-- No rule of the list has the name of a namespace of another, or of its own. -/
def NamesUnshared (rules : List Rule) : Prop := ∀ a ∈ rules, ∀ b ∈ rules, a.name ∉ b.namespaces

namespace Hierarchy

variable {υ : Type} {H : Hierarchy υ} {rules : List Rule}

theorem matchedBy_eq_true {truth : Rule → υ → Bool} {v : String} {u : υ} :
    matchedBy rules truth v u = true ↔ ∃ r ∈ rules, v ∈ r.published ∧ truth r u = true := by
  simp only [matchedBy, List.any_eq_true, Bool.and_eq_true, decide_eq_true_eq]

theorem matchedBy_congr {truth truth' : Rule → υ → Bool} {v : String} {u : υ}
    (h : ∀ r ∈ rules, v ∈ r.published → truth r u = truth' r u) :
    matchedBy rules truth v u = matchedBy rules truth' v u := by
  rw [Bool.eq_iff_iff, matchedBy_eq_true, matchedBy_eq_true]
  constructor
  · exact fun ⟨r, hr, hv, ht⟩ => ⟨r, hr, hv, h r hr hv ▸ ht⟩
  · exact fun ⟨r, hr, hv, ht⟩ => ⟨r, hr, hv, (h r hr hv).symm ▸ ht⟩

end Hierarchy

/-- A rule depends on every rule that publishes what it looks at. -/
theorem publisher_dependency {rules : List Rule} (hn : NamesUnshared rules)
    (ha : RuleSet.Accepts rules) {r a : Rule} (hr : r ∈ rules) (hm : a ∈ rules) {v : String}
    (hv : v ∈ r.body.observed) (hp : v ∈ a.published) :
    a.name ∈ getDependencies r.body (indexRulesByNamespace rules) := by
  refine mem_getDependencies.mpr ⟨v, hv, mem_referents.mpr ?_⟩
  rcases List.mem_cons.mp hp with hname | hns
  · refine Or.inr ⟨hname.symm, fun b hb hvb => ?_⟩
    exact hn a hm b hb (hname ▸ (Rule.mem_prefixes.mp hvb).1)
  · by_cases hempty : v = ""
    · -- nothing is filed under the empty namespace, so a rule has this name
      have hnot : ∀ b ∈ rules, v ∉ b.prefixes := fun b _ hvb => (Rule.mem_prefixes.mp hvb).2 hempty
      have hdep : v ∈ getDependencies r.body (indexRulesByNamespace rules) :=
        mem_getDependencies.mpr ⟨v, hv, mem_referents.mpr (Or.inr ⟨rfl, hnot⟩)⟩
      obtain ⟨b, hb, hname⟩ := ha.met r hr v hdep
      exact absurd (hname ▸ hns) (hn b hb a hm)
    · exact Or.inl ⟨a, hm, Rule.mem_prefixes.mpr ⟨hns, hempty⟩, rfl⟩

/-- How many rules of the list stand before a name in an order. -/
def rank (rules : List Rule) (order : List String) (name : String) : Nat :=
  rules.countP fun r => decide (order.idxOf r.name < order.idxOf name)

theorem rank_lt {rules : List Rule} {order : List String} {a : Rule} (ha : a ∈ rules)
    {name : String} (h : order.idxOf a.name < order.idxOf name) :
    rank rules order a.name < rank rules order name := by
  unfold rank
  induction rules with
  | nil => exact absurd ha List.not_mem_nil
  | cons r rules ih =>
    have hle : ∀ rs : List Rule, rs.countP (fun r => decide (order.idxOf r.name < order.idxOf a.name)) ≤
        rs.countP fun r => decide (order.idxOf r.name < order.idxOf name) := fun rs =>
      List.countP_mono_left fun x _ hx => decide_eq_true ((of_decide_eq_true hx).trans h)
    rw [List.countP_cons, List.countP_cons]
    rcases List.mem_cons.mp ha with rfl | ha
    · have := hle rules
      simp only [decide_eq_true h, Nat.lt_irrefl, decide_false, if_true, Bool.false_eq_true, if_false]
      omega
    · have hlt := ih ha
      by_cases hr : order.idxOf r.name < order.idxOf a.name
      · simp only [decide_eq_true hr, decide_eq_true (hr.trans h), if_true]
        omega
      · simp only [decide_eq_false hr, Bool.false_eq_true, if_false]
        omega

theorem rank_lt_length {rules : List Rule} {order : List String} {r : Rule} (hr : r ∈ rules) :
    rank rules order r.name < rules.length := by
  unfold rank
  rw [List.countP_lt_length_iff]
  exact ⟨r, hr, decide_eq_false (Nat.lt_irrefl _)⟩

section

variable {υ : Type} [ComDatabase] [RegexBackend] {H : Hierarchy υ} {rules : List Rule}

/-- With more fuel than rules before it, the truth of a rule is settled. -/
theorem Hierarchy.truth_stable (ha : RuleSet.Accepts rules) (hn : NamesUnshared rules)
    {order : List String}
    (horder : ∀ r ∈ rules, ∀ d ∈ getDependencies r.body (indexRulesByNamespace rules),
      order.idxOf d < order.idxOf r.name)
    {r : Rule} (hr : r ∈ rules) {n m : Nat} (hlt : rank rules order r.name < n)
    (hlt' : rank rules order r.name < m) (u : υ) :
    H.truth rules n r u = H.truth rules m r u := by
  induction n generalizing r m u with
  | zero => omega
  | succ n ih =>
    cases m with
    | zero => omega
    | succ m =>
      rw [truth, truth]
      refine congrArg (r.scopes.contains (H.scope u) && ·) (holds_congr ?_ u)
      intro v hv u'
      refine matchedBy_congr fun a hm hp => ?_
      have hdep := publisher_dependency hn ha hr hm hv hp
      have hrank := rank_lt hm (horder r hr a.name hdep)
      exact ih hm (by omega) (by omega) u'

/-- A rule of an accepted list matches at a unit of one of its scopes exactly when its body holds
    there, its match leaves asking for rules of the list that match. -/
theorem Rule.matchesAt_eq (ha : RuleSet.Accepts rules) (hn : NamesUnshared rules) {r : Rule}
    (hr : r ∈ rules) (u : υ) :
    r.matchesAt H rules u = (r.scopes.contains (H.scope u) &&
      H.holds (Hierarchy.matchedBy rules (Rule.matchesAt H rules)) r.body u) := by
  obtain ⟨order, _, horder⟩ := ha.ordered
  have hlt : rank rules order r.name < rules.length := rank_lt_length hr
  have hsucc : r.matchesAt H rules u = H.truth rules (rules.length + 1) r u :=
    Hierarchy.truth_stable ha hn horder hr hlt (by omega) u
  rw [hsucc]
  rfl

end

end CapaX
