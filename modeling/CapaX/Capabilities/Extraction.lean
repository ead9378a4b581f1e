import CapaX.Capabilities.Expansion
import CapaX.Engine.Reading
import Mathlib.Algebra.Order.BigOperators.Group.List

/-
  What the expansion of a rule list preserves.

  * COM expansion leaves no COM leaf and touches neither subscopes nor match values
    (`expandComNode_ok`).
  * Extraction replaces the outermost subscopes of a body, in order, by match leaves with the
    names `parent/1`, `parent/2`, .. (`extract_extracted`); the new body reads as the old one
    when those leaves stand for the subscopes they replace (`extract_reads`).
  * The optimizer reorders children, so it changes no reading that only counts them
    (`optimizeNode_reads`).
  * `expandAndExtract_spec`: the expanded list holds exactly the finished rules of everything
    that descends from the given rules.
-/

namespace CapaX

namespace Node

/-! ## COM expansion -/

/-- No COM leaf anywhere in the body. -/
def NoCom (n : Node) : Prop := n.Everywhere fun s => ∀ kind name, s ≠ .leaf (.com kind name)

theorem NoCom.children {n c : Node} (h : n.NoCom) (hc : c ∈ n.stmt.children) : c.NoCom :=
  (everywhere_iff.mp h).2 c hc

/-- A node that is not a COM leaf, over children without one. -/
theorem noCom_of {n : Node} (h : ∀ kind name, n.stmt ≠ .leaf (.com kind name))
    (hc : ∀ c ∈ n.stmt.children, c.NoCom) : n.NoCom := everywhere_iff.mpr ⟨h, hc⟩

/-- A subscope whose whole body is a subscope. -/
def stacked : Statement Node → Bool
  | .subscope _ body => body.stmt.isSubscope
  | _ => false

/-- No subscope is the whole body of another. -/
def StackFree (n : Node) : Prop := n.Everywhere fun s => stacked s = false

instance (n : Node) : Decidable n.StackFree := inferInstanceAs (Decidable (n.Everywhere _))

/-- The kind of a subscope. -/
def subscopeKind : Statement Node → Option Scope
  | .subscope scope _ => some scope
  | _ => none

theorem isSubscope_eq (s : Statement Node) : s.isSubscope = (subscopeKind s).isSome := by
  cases s <;> rfl

/-- Every subscope of a node is of a kind `q` allows. -/
def ScopesIn (q : Scope → Prop) (n : Node) : Prop :=
  n.Everywhere fun s => ∀ scope, subscopeKind s = some scope → q scope

instance (q : Scope → Prop) [DecidablePred q] (n : Node) : Decidable (n.ScopesIn q) :=
  have (s : Statement Node) : Decidable (∀ scope, subscopeKind s = some scope → q scope) :=
    match subscopeKind s with
    | none => .isTrue fun _ h' => nomatch h'
    | some scope => decidable_of_iff (q scope)
        ⟨fun hq _ h' => Option.some.inj h' ▸ hq, fun hq => hq scope rfl⟩
  (inferInstance : Decidable (n.Everywhere _))

theorem subscopeCount_eq (n : Node) :
    n.subscopeCount = (if n.stmt.isSubscope then 1 else 0) +
      (n.stmt.children.map subscopeCount).sum := by
  have hflat : ∀ cs : List Node, (cs.flatMap subnodes).countP (fun m => m.stmt.isSubscope) =
      (cs.map subscopeCount).sum := by
    intro cs
    induction cs with
    | nil => rfl
    | cons c cs ih =>
      rw [List.flatMap_cons, List.countP_append, ih, List.map_cons, List.sum_cons]
      rfl
  rw [subscopeCount, subnodes_eq, List.countP_cons, hflat, Nat.add_comm]

end Node

open Node

/-- What COM expansion keeps of a node. -/
structure Expands (n n' : Node) : Prop where
  noCom : n'.NoCom
  observed : ∀ v, v ∈ n'.observed ↔ v ∈ n.observed
  subscopes : n'.subscopeCount = n.subscopeCount
  stackFree : n'.StackFree ↔ n.StackFree
  root : n'.stmt.isSubscope = n.stmt.isSubscope
  kinds : ∀ q : Scope → Prop, n.ScopesIn q → n'.ScopesIn q

section

variable {cs cs' : List Node}

theorem forall₂_mem_right {α β : Type} {R : α → β → Prop} {l : List α} {l' : List β}
    (h : List.Forall₂ R l l') {b : β} (hb : b ∈ l') : ∃ a ∈ l, R a b := by
  induction h with
  | nil => exact absurd hb List.not_mem_nil
  | cons hr _ ih =>
    rcases List.mem_cons.mp hb with rfl | hb
    · exact ⟨_, List.mem_cons_self, hr⟩
    · obtain ⟨a, ha, hr⟩ := ih hb
      exact ⟨a, List.mem_cons_of_mem _ ha, hr⟩

theorem forall₂_mem_left {α β : Type} {R : α → β → Prop} {l : List α} {l' : List β}
    (h : List.Forall₂ R l l') {a : α} (ha : a ∈ l) : ∃ b ∈ l', R a b := by
  obtain ⟨b, hb, hr⟩ := forall₂_mem_right h.flip ha
  exact ⟨b, hb, hr⟩

/-- A node keeps what its children and its own statement keep. -/
theorem Expands.of_children {n n' : Node}
    (hs : subscopeKind n'.stmt = subscopeKind n.stmt) (ho : n'.stmt.observed = n.stmt.observed)
    (hk : stacked n'.stmt = stacked n.stmt)
    (hcom : ∀ kind name, n'.stmt ≠ .leaf (.com kind name))
    (h : List.Forall₂ Expands n.stmt.children n'.stmt.children) : Expands n n' where
  noCom := noCom_of hcom fun c' hc => by
    obtain ⟨c, _, he⟩ := forall₂_mem_right h hc
    exact he.noCom
  observed v := by
    rw [mem_observed, mem_observed, ho]
    refine or_congr_right ⟨fun ⟨c', hc, hv⟩ => ?_, fun ⟨c, hc, hv⟩ => ?_⟩
    · obtain ⟨c, hc, he⟩ := forall₂_mem_right h hc
      exact ⟨c, hc, (he.observed v).mp hv⟩
    · obtain ⟨c', hc, he⟩ := forall₂_mem_left h hc
      exact ⟨c', hc, (he.observed v).mpr hv⟩
  subscopes := by
    have hsum : ∀ {cs cs' : List Node}, List.Forall₂ Expands cs cs' →
        (cs'.map subscopeCount).sum = (cs.map subscopeCount).sum := by
      intro cs cs' hcs
      induction hcs with
      | nil => rfl
      | cons he _ ih => rw [List.map_cons, List.map_cons, List.sum_cons, List.sum_cons, ih,
          he.subscopes]
    rw [subscopeCount_eq n', subscopeCount_eq n, isSubscope_eq, isSubscope_eq, hs, hsum h]
  stackFree := by
    rw [StackFree, everywhere_iff, StackFree, everywhere_iff, hk]
    refine and_congr_right fun _ => ⟨fun hc c hcm => ?_, fun hc c' hcm => ?_⟩
    · obtain ⟨c', hcm, he⟩ := forall₂_mem_left h hcm
      exact he.stackFree.mp (hc c' hcm)
    · obtain ⟨c, hcm, he⟩ := forall₂_mem_right h hcm
      exact he.stackFree.mpr (hc c hcm)
  root := by rw [isSubscope_eq, isSubscope_eq, hs]
  kinds q hq := by
    obtain ⟨hroot, hcs⟩ := everywhere_iff.mp hq
    refine everywhere_iff.mpr ⟨by rwa [hs], fun c' hc' => ?_⟩
    obtain ⟨c, hc, he⟩ := forall₂_mem_right h hc'
    exact he.kinds q (hcs c hc)

end

/-- The disjunction a COM leaf becomes has no subscope and no match value. -/
theorem guidLeaves_expands {kind : ComKind} {name : String} {cs : List Node} {d : Option String}
    (h : ∀ c ∈ cs, IsGuidLeaf c) : Expands ⟨.leaf (.com kind name), d⟩ ⟨.or cs, d⟩ := by
  have hleaf : ∀ c ∈ cs, ∃ f d, c = ⟨.leaf f, d⟩ ∧ (∀ kind name, f ≠ .com kind name) ∧
      ∀ v, f ≠ .matchedRule v := by
    intro c hc
    obtain ⟨d, ⟨v, rfl⟩ | ⟨v, rfl⟩⟩ := h c hc
    · exact ⟨_, d, rfl, fun _ _ h => (nomatch h), fun _ h => (nomatch h)⟩
    · exact ⟨_, d, rfl, fun _ _ h => (nomatch h), fun _ h => (nomatch h)⟩
  refine ⟨noCom_of (fun _ _ h => (nomatch h)) fun c hc => ?_, fun v => ?_, ?_, ?_, rfl,
    fun q _ => ?_⟩
  · obtain ⟨f, d, rfl, hcom, _⟩ := hleaf c hc
    exact noCom_of (fun kind name h => hcom kind name (Statement.leaf.inj h))
      fun _ h => absurd h List.not_mem_nil
  · rw [mem_observed_or, mem_observed_leaf]
    refine iff_of_false (fun ⟨c, hc, hv⟩ => ?_) fun h => (nomatch h)
    obtain ⟨f, d, rfl, _, hmatch⟩ := hleaf c hc
    exact hmatch v (mem_observed_leaf.mp hv)
  · have hzero : (cs.map subscopeCount).sum = 0 := by
      refine List.sum_eq_zero_iff_forall_eq_nat.mpr fun k hk => ?_
      obtain ⟨c, hc, rfl⟩ := List.mem_map.mp hk
      obtain ⟨f, d, rfl, _, _⟩ := hleaf c hc
      rfl
    rw [subscopeCount_eq ⟨.or cs, d⟩]
    exact (Nat.zero_add _).trans hzero
  · rw [StackFree, everywhere_iff, StackFree, everywhere_iff]
    refine and_congr Iff.rfl (iff_of_true (fun c hc => ?_) fun c hc => absurd hc List.not_mem_nil)
    obtain ⟨f, d, rfl, _, _⟩ := hleaf c hc
    exact everywhere_iff.mpr ⟨rfl, fun c hc => absurd hc List.not_mem_nil⟩
  · refine everywhere_iff.mpr ⟨fun _ h => (nomatch h), fun c hc => ?_⟩
    obtain ⟨f, d, rfl, _, _⟩ := hleaf c hc
    exact everywhere_iff.mpr ⟨fun _ h => (nomatch h), fun c hc => absurd hc List.not_mem_nil⟩

section

variable [ComDatabase]

theorem expandComNode_leaf {f : Feature} {d : Option String}
    (h : ∀ kind name, f ≠ .com kind name) : expandComNode ⟨.leaf f, d⟩ = .ok ⟨.leaf f, d⟩ := by
  cases f <;> first | rfl | exact absurd rfl (h _ _)

theorem expandComChildren_expands {cs cs' : List Node}
    (ih : ∀ c ∈ cs, ∀ {n'}, expandComNode c = .ok n' → Expands c n')
    (h : expandComChildren cs = .ok cs') : List.Forall₂ Expands cs cs' := by
  induction cs generalizing cs' with
  | nil =>
    obtain rfl : [] = cs' := Except.ok.inj h
    exact .nil
  | cons c cs ih' =>
    obtain ⟨c', hc, h⟩ := Control.bind_eq_ok.mp h
    obtain ⟨cs'', hcs, h⟩ := Control.bind_eq_ok.mp h
    obtain rfl := Except.ok.inj h
    exact .cons (ih c List.mem_cons_self hc)
      (ih' (fun x hx => ih x (List.mem_cons_of_mem _ hx)) hcs)

/-- COM expansion touches COM leaves only. -/
theorem expandComNode_ok {n n' : Node} (h : expandComNode n = .ok n') : Expands n n' := by
  induction n using Node.induct generalizing n' with
  | and cs d ih =>
    obtain ⟨cs', hcs, h⟩ := Control.bind_eq_ok.mp h
    obtain rfl := Except.ok.inj h
    exact .of_children rfl rfl rfl (fun _ _ h => (nomatch h)) (expandComChildren_expands ih hcs)
  | or cs d ih =>
    obtain ⟨cs', hcs, h⟩ := Control.bind_eq_ok.mp h
    obtain rfl := Except.ok.inj h
    exact .of_children rfl rfl rfl (fun _ _ h => (nomatch h)) (expandComChildren_expands ih hcs)
  | some k cs d ih =>
    obtain ⟨cs', hcs, h⟩ := Control.bind_eq_ok.mp h
    obtain rfl := Except.ok.inj h
    exact .of_children rfl rfl rfl (fun _ _ h => (nomatch h)) (expandComChildren_expands ih hcs)
  | not c d ih =>
    obtain ⟨c', hc, h⟩ := Control.bind_eq_ok.mp h
    obtain rfl := Except.ok.inj h
    exact .of_children rfl rfl rfl (fun _ _ h => (nomatch h)) (.cons (ih hc) .nil)
  | range f min max d =>
    obtain rfl := Except.ok.inj h
    exact .of_children rfl rfl rfl (fun _ _ h => (nomatch h)) .nil
  | subscope s b d ih =>
    obtain ⟨b', hb, h⟩ := Control.bind_eq_ok.mp h
    obtain rfl := Except.ok.inj h
    exact .of_children rfl rfl (ih hb).root (fun _ _ h => (nomatch h)) (.cons (ih hb) .nil)
  | leaf f d =>
    by_cases hf : ∀ kind name, f ≠ .com kind name
    · rw [expandComNode_leaf hf] at h
      obtain rfl := Except.ok.inj h
      exact .of_children rfl rfl rfl (fun kind name h => hf kind name (Statement.leaf.inj h)) .nil
    · obtain ⟨kind, name, rfl⟩ : ∃ kind name, f = .com kind name := by
        by_contra hn
        exact hf fun kind name h => hn ⟨kind, name, h⟩
      obtain ⟨stmt, hs, h⟩ := Control.bind_eq_ok.mp h
      obtain ⟨children, rfl, hg⟩ := translateComFeature_ok hs
      obtain rfl := Except.ok.inj h
      exact guidLeaves_expands hg

end

/-! ## Extraction -/

namespace Node

mutual

/-- The outermost subscopes of a body, in the order of the traversal. -/
def topSubscopes : Node → List (Scope × Node)
  | ⟨.subscope s b, _⟩ => [(s, b)]
  | ⟨.and cs, _⟩ => topSubscopesAll cs
  | ⟨.or cs, _⟩ => topSubscopesAll cs
  | ⟨.some _ cs, _⟩ => topSubscopesAll cs
  | ⟨.not c, _⟩ => topSubscopes c
  | ⟨.range _ _ _, _⟩ => []
  | ⟨.leaf _, _⟩ => []

def topSubscopesAll : List Node → List (Scope × Node)
  | [] => []
  | c :: cs => topSubscopes c ++ topSubscopesAll cs

end

theorem topSubscopesAll_eq (cs : List Node) : topSubscopesAll cs = cs.flatMap topSubscopes := by
  induction cs with
  | nil => rfl
  | cons c cs ih => rw [topSubscopesAll, ih, List.flatMap_cons]

end Node

/-- The names subscopes get when the counter stands at `k`. -/
def named (ruleName : String) (k : Nat) : List (Scope × Node) → List (String × Scope × Node)
  | [] => []
  | e :: es => (subscopeName ruleName (k + 1), e.1, e.2) :: named ruleName (k + 1) es

theorem named_append (ruleName : String) (k : Nat) (es fs : List (Scope × Node)) :
    named ruleName k (es ++ fs) = named ruleName k es ++ named ruleName (k + es.length) fs := by
  induction es generalizing k with
  | nil => rfl
  | cons e es ih =>
    rw [List.cons_append, named, ih, named, List.cons_append, List.length_cons, Nat.add_assoc,
      Nat.add_comm 1]

theorem map_named (ruleName : String) (k : Nat) (es : List (Scope × Node)) :
    (named ruleName k es).map (fun e => (e.2.1, e.2.2)) = es := by
  induction es generalizing k with
  | nil => rfl
  | cons e es ih => rw [named, List.map_cons, ih]

/-- What a step of the traversal does to the counter and the extracted subscopes. -/
def Extraction.take (ruleName : String) (st : Extraction) (es : List (Scope × Node)) :
    Extraction :=
  ⟨st.counter + es.length, st.extracted ++ named ruleName st.counter es⟩

theorem Extraction.take_take (ruleName : String) (st : Extraction) (es fs : List (Scope × Node)) :
    (st.take ruleName es).take ruleName fs = st.take ruleName (es ++ fs) := by
  simp only [take, named_append, List.append_assoc, List.length_append, Nat.add_assoc]

theorem extractChildList_extracted {ruleName : String} {cs : List Node}
    (ih : ∀ c ∈ cs, ∀ st, (extractSingleChild ruleName c st).2 = st.take ruleName c.topSubscopes)
    (st : Extraction) :
    (extractChildList ruleName cs st).2 = st.take ruleName (cs.flatMap topSubscopes) := by
  induction cs generalizing st with
  | nil => simp [extractChildList, Extraction.take, named]
  | cons c cs ih' =>
    show (extractChildList ruleName cs (extractSingleChild ruleName c st).2).2 = _
    rw [ih c List.mem_cons_self, ih' fun x hx => ih x (List.mem_cons_of_mem _ hx), Extraction.take_take,
      List.flatMap_cons]

/-- Extraction collects the outermost subscopes in order, under consecutive names. -/
theorem extract_extracted (ruleName : String) (n : Node) (st : Extraction) :
    (extractSingleChild ruleName n st).2 = st.take ruleName n.topSubscopes := by
  induction n using Node.induct generalizing st with
  | and cs d ih | or cs d ih | some k cs d ih =>
    rw [extractSingleChild, topSubscopes, topSubscopesAll_eq]
    exact extractChildList_extracted ih st
  | not c d ih =>
    rw [extractSingleChild, topSubscopes]
    exact ih st
  | subscope s b d ih => rfl
  | range f min max d | leaf f d => simp [extractSingleChild, topSubscopes, Extraction.take, named]

/-- Induction along a traversal whose names all come from `L`: every subscope it meets is
    replaced by its name, everything else is kept. -/
theorem extract_induct {ruleName : String} {L : List (String × Scope × Node)}
    {Q : Node → Node → Prop}
    (and : ∀ cs cs' d, List.Forall₂ Q cs cs' → Q ⟨.and cs, d⟩ ⟨.and cs', d⟩)
    (or : ∀ cs cs' d, List.Forall₂ Q cs cs' → Q ⟨.or cs, d⟩ ⟨.or cs', d⟩)
    (not : ∀ c c' d, Q c c' → Q ⟨.not c, d⟩ ⟨.not c', d⟩)
    (some : ∀ k cs cs' d, List.Forall₂ Q cs cs' → Q ⟨.some k cs, d⟩ ⟨.some k cs', d⟩)
    (range : ∀ f min max d, Q ⟨.range f min max, d⟩ ⟨.range f min max, d⟩)
    (subscope : ∀ s b d name, (name, s, b) ∈ L →
      Q ⟨.subscope s b, d⟩ ⟨.leaf (.matchedRule name), none⟩)
    (leaf : ∀ f d, Q ⟨.leaf f, d⟩ ⟨.leaf f, d⟩) (n : Node) (st : Extraction)
    (h : ∀ e ∈ named ruleName st.counter n.topSubscopes, e ∈ L) :
    Q n (extractSingleChild ruleName n st).1 := by
  have hlist : ∀ cs : List Node,
      (∀ c ∈ cs, ∀ st : Extraction, (∀ e ∈ named ruleName st.counter c.topSubscopes, e ∈ L) →
        Q c (extractSingleChild ruleName c st).1) →
      ∀ st : Extraction, (∀ e ∈ named ruleName st.counter (cs.flatMap topSubscopes), e ∈ L) →
        List.Forall₂ Q cs (extractChildList ruleName cs st).1 := by
    intro cs ih
    induction cs with
    | nil => exact fun _ _ => .nil
    | cons c cs ih' =>
      intro st h
      rw [List.flatMap_cons, named_append] at h
      refine .cons (ih c List.mem_cons_self st fun e he => h e (List.mem_append_left _ he)) ?_
      refine ih' (fun x hx => ih x (List.mem_cons_of_mem _ hx)) _ fun e he => ?_
      rw [extract_extracted] at he
      exact h e (List.mem_append_right _ he)
  induction n using Node.induct generalizing st with
  | and cs d ih =>
    rw [topSubscopes, topSubscopesAll_eq] at h
    exact and _ _ d (hlist cs ih st h)
  | or cs d ih =>
    rw [topSubscopes, topSubscopesAll_eq] at h
    exact or _ _ d (hlist cs ih st h)
  | not c d ih => exact not _ _ d (ih st h)
  | some k cs d ih =>
    rw [topSubscopes, topSubscopesAll_eq] at h
    exact some k _ _ d (hlist cs ih st h)
  | range f min max d => exact range f min max d
  | subscope s b d ih => exact subscope s b d _ (h _ List.mem_cons_self)
  | leaf f d => exact leaf f d

theorem map_eq_of_forall₂ {β : Type} {f g : Node → β} {P : Node → Prop} {cs cs' : List Node}
    (h : List.Forall₂ (fun c c' => P c → f c' = g c) cs cs') (hp : ∀ c ∈ cs, P c) :
    cs'.map f = cs.map g := by
  induction h with
  | nil => rfl
  | cons hr _ ih =>
    rw [List.map_cons, List.map_cons, hr (hp _ List.mem_cons_self),
      ih fun c hc => hp c (List.mem_cons_of_mem _ hc)]

/-- The new body reads as the old one when the names stand for the subscopes they replace. -/
theorem extract_reads {ruleName : String} {R R' : Reading} {n : Node} {st : Extraction}
    (hnames : ∀ e ∈ named ruleName st.counter n.topSubscopes,
      R'.leaf (.matchedRule e.1) = R.subscope e.2.1 e.2.2)
    (hleaf : ∀ f, (∀ v, f = .matchedRule v → v ∈ n.observed) → R'.leaf f = R.leaf f)
    (hrange : ∀ f min max, (∀ v, f = .matchedRule v → v ∈ n.observed) →
      R'.range f min max = R.range f min max)
    (hsome : R'.some = R.some) :
    (extractSingleChild ruleName n st).1.reads R' = n.reads R := by
  have key : (∀ v ∈ n.observed, v ∈ n.observed) →
      (extractSingleChild ruleName n st).1.reads R' = n.reads R := by
    refine extract_induct (L := named ruleName st.counter n.topSubscopes)
      (Q := fun c c' => (∀ v ∈ c.observed, v ∈ n.observed) → c'.reads R' = c.reads R)
      ?_ ?_ ?_ ?_ ?_ ?_ ?_ n st (fun e he => he)
    · intro cs cs' d h hv
      have hmap := map_eq_of_forall₂ h fun c hc v hvc => hv v (mem_observed_and.mpr ⟨c, hc, hvc⟩)
      rw [← readsAll_eq, ← readsAll_eq] at hmap
      rw [reads, reads, hmap]
    · intro cs cs' d h hv
      have hmap := map_eq_of_forall₂ h fun c hc v hvc => hv v (mem_observed_or.mpr ⟨c, hc, hvc⟩)
      rw [← readsAll_eq, ← readsAll_eq] at hmap
      rw [reads, reads, hmap]
    · intro c c' d h hv
      rw [reads_not, reads_not, h fun v hvc => hv v (mem_observed_not.mpr hvc)]
    · intro k cs cs' d h hv
      have hmap := map_eq_of_forall₂ h fun c hc v hvc => hv v (mem_observed_some.mpr ⟨c, hc, hvc⟩)
      rw [reads_some, reads_some, hmap, hsome]
    · intro f min max d hv
      rw [reads_range, reads_range]
      exact hrange f min max fun v hf => hv v (mem_observed_range.mpr hf)
    · intro s b d name he _
      rw [reads_leaf, reads_subscope]
      exact hnames _ he
    · intro f d hv
      rw [reads_leaf, reads_leaf]
      exact hleaf f fun v hf => hv v (mem_observed_leaf.mpr hf)
  exact key fun _ h => h

/-- The new body looks at match values of the old one, and at the new names. -/
theorem extract_observed {ruleName : String} {n : Node} {st : Extraction} {v : String}
    (hv : v ∈ (extractSingleChild ruleName n st).1.observed) :
    v ∈ n.observed ∨ ∃ e ∈ named ruleName st.counter n.topSubscopes, e.1 = v := by
  revert hv
  have hlist : ∀ {cs cs' : List Node} {v : String},
      List.Forall₂ (fun c c' => v ∈ c'.observed → v ∈ c.observed ∨
        ∃ e ∈ named ruleName st.counter n.topSubscopes, e.1 = v) cs cs' →
      (∃ c' ∈ cs', v ∈ c'.observed) → (∃ c ∈ cs, v ∈ c.observed) ∨
        ∃ e ∈ named ruleName st.counter n.topSubscopes, e.1 = v := by
    rintro cs cs' v h ⟨c', hc', hv⟩
    obtain ⟨c, hc, hcc⟩ := forall₂_mem_right h hc'
    exact (hcc hv).imp (fun hv => ⟨c, hc, hv⟩) id
  refine extract_induct (L := named ruleName st.counter n.topSubscopes)
    (Q := fun c c' => v ∈ c'.observed → v ∈ c.observed ∨
      ∃ e ∈ named ruleName st.counter n.topSubscopes, e.1 = v)
    ?_ ?_ ?_ ?_ ?_ ?_ ?_ n st (fun e he => he)
  · intro cs cs' d h hv
    rw [mem_observed_and] at hv ⊢
    exact hlist h hv
  · intro cs cs' d h hv
    rw [mem_observed_or] at hv ⊢
    exact hlist h hv
  · intro c c' d h hv
    rw [mem_observed_not] at hv ⊢
    exact h hv
  · intro k cs cs' d h hv
    rw [mem_observed_some] at hv ⊢
    exact hlist h hv
  · exact fun _ _ _ _ hv => Or.inl hv
  · intro s b d name he hv
    exact Or.inr ⟨_, he, Feature.matchedRule.inj (mem_observed_leaf.mp hv)⟩
  · exact fun _ _ hv => Or.inl hv

/-- Without COM leaves, what comes out can be evaluated. -/
theorem extract_evaluable {ruleName : String} {n : Node} {st : Extraction} (h : n.NoCom) :
    (extractSingleChild ruleName n st).1.Evaluable := by
  revert h
  have hlist : ∀ {cs cs' : List Node}, List.Forall₂ (fun c c' : Node => c.NoCom → c'.Evaluable)
      cs cs' → (∀ c ∈ cs, c.NoCom) → ∀ c' ∈ cs', c'.Evaluable := by
    intro cs cs' h hn c' hc'
    obtain ⟨c, hc, hcc⟩ := forall₂_mem_right h hc'
    exact hcc (hn c hc)
  refine extract_induct (L := named ruleName st.counter n.topSubscopes)
    (Q := fun c c' => c.NoCom → c'.Evaluable) ?_ ?_ ?_ ?_ ?_ ?_ ?_ n st (fun e he => he)
  · exact fun cs cs' d h hn => everywhere_iff.mpr ⟨rfl, hlist h fun c hc => hn.children hc⟩
  · exact fun cs cs' d h hn => everywhere_iff.mpr ⟨rfl, hlist h fun c hc => hn.children hc⟩
  · intro c c' d h hn
    refine everywhere_iff.mpr ⟨rfl, fun x hx => ?_⟩
    rw [List.mem_singleton.mp hx]
    exact h (hn.children List.mem_cons_self)
  · exact fun k cs cs' d h hn => everywhere_iff.mpr ⟨rfl, hlist h fun c hc => hn.children hc⟩
  · exact fun f min max d _ => everywhere_iff.mpr ⟨rfl, fun x hx => absurd hx List.not_mem_nil⟩
  · exact fun s b d name _ _ =>
      everywhere_iff.mpr ⟨rfl, fun x hx => absurd hx List.not_mem_nil⟩
  · intro f d hn
    refine everywhere_iff.mpr ⟨?_, fun x hx => absurd hx List.not_mem_nil⟩
    have hf : ∀ kind name, Statement.leaf f ≠ .leaf (.com kind name) := (everywhere_iff.mp hn).1
    unfold Statement.evaluable
    split
    · next h => cases h
    · next h => exact absurd h (hf _ _)
    · rfl

/-- Every new name is observed by the new body. -/
theorem extract_observes_names {ruleName : String} {n : Node} {st : Extraction}
    {e : String × Scope × Node} (he : e ∈ named ruleName st.counter n.topSubscopes) :
    e.1 ∈ (extractSingleChild ruleName n st).1.observed := by
  have hlist : ∀ cs : List Node,
      (∀ c ∈ cs, ∀ st : Extraction, e ∈ named ruleName st.counter c.topSubscopes →
        e.1 ∈ (extractSingleChild ruleName c st).1.observed) →
      ∀ st : Extraction, e ∈ named ruleName st.counter (cs.flatMap topSubscopes) →
        ∃ c' ∈ (extractChildList ruleName cs st).1, e.1 ∈ c'.observed := by
    intro cs ih
    induction cs with
    | nil => exact fun _ he => absurd he List.not_mem_nil
    | cons c cs ih' =>
      intro st he
      rw [List.flatMap_cons, named_append, List.mem_append] at he
      rcases he with he | he
      · exact ⟨_, List.mem_cons_self, ih c List.mem_cons_self st he⟩
      · have hst : (extractSingleChild ruleName c st).2 = st.take ruleName c.topSubscopes :=
          extract_extracted ruleName c st
        obtain ⟨c', hc', hv⟩ := ih' (fun x hx => ih x (List.mem_cons_of_mem _ hx))
          (extractSingleChild ruleName c st).2 (by rw [hst]; exact he)
        exact ⟨c', List.mem_cons_of_mem _ hc', hv⟩
  induction n using Node.induct generalizing st with
  | and cs d ih =>
    rw [topSubscopes, topSubscopesAll_eq] at he
    exact mem_observed_and.mpr (hlist cs (fun c hc st h => ih c hc h) st he)
  | or cs d ih =>
    rw [topSubscopes, topSubscopesAll_eq] at he
    exact mem_observed_or.mpr (hlist cs (fun c hc st h => ih c hc h) st he)
  | not c d ih => exact mem_observed_not.mpr (ih he)
  | some k cs d ih =>
    rw [topSubscopes, topSubscopesAll_eq] at he
    exact mem_observed_some.mpr (hlist cs (fun c hc st h => ih c hc h) st he)
  | range f min max d => exact absurd he List.not_mem_nil
  | subscope s b d ih =>
    obtain rfl := List.mem_singleton.mp he
    exact mem_observed_leaf.mpr rfl
  | leaf f d => exact absurd he List.not_mem_nil

/-! ### The bodies of subscopes -/

namespace Node

theorem mem_topSubscopesAll {cs : List Node} {e : Scope × Node} :
    e ∈ topSubscopesAll cs ↔ ∃ c ∈ cs, e ∈ c.topSubscopes := by
  rw [topSubscopesAll_eq, List.mem_flatMap]

/-- A property of every statement of a node holds in the bodies of its subscopes. -/
theorem Everywhere.topSubscopes {p : Statement Node → Prop} {n : Node} (h : n.Everywhere p)
    {e : Scope × Node} (he : e ∈ n.topSubscopes) :
    p (.subscope e.1 e.2) ∧ e.2.Everywhere p := by
  induction n using Node.induct with
  | and cs d ih | or cs d ih | some k cs d ih =>
    obtain ⟨c, hc, he⟩ := mem_topSubscopesAll.mp he
    exact ih c hc ((everywhere_iff.mp h).2 c hc) he
  | not c d ih => exact ih ((everywhere_iff.mp h).2 c List.mem_cons_self) he
  | subscope s b d ih =>
    obtain rfl := List.mem_singleton.mp he
    exact ⟨(everywhere_iff.mp h).1, (everywhere_iff.mp h).2 b List.mem_cons_self⟩
  | range f min max d | leaf f d => exact absurd he List.not_mem_nil

theorem observed_of_topSubscopes {n : Node} {e : Scope × Node} (he : e ∈ n.topSubscopes)
    {v : String} (hv : v ∈ e.2.observed) : v ∈ n.observed := by
  induction n using Node.induct with
  | and cs d ih =>
    obtain ⟨c, hc, he⟩ := mem_topSubscopesAll.mp he
    exact mem_observed_and.mpr ⟨c, hc, ih c hc he⟩
  | or cs d ih =>
    obtain ⟨c, hc, he⟩ := mem_topSubscopesAll.mp he
    exact mem_observed_or.mpr ⟨c, hc, ih c hc he⟩
  | some k cs d ih =>
    obtain ⟨c, hc, he⟩ := mem_topSubscopesAll.mp he
    exact mem_observed_some.mpr ⟨c, hc, ih c hc he⟩
  | not c d ih => exact mem_observed_not.mpr (ih he)
  | subscope s b d ih =>
    obtain rfl := List.mem_singleton.mp he
    exact mem_observed_subscope.mpr hv
  | range f min max d | leaf f d => exact absurd he List.not_mem_nil

/-- Each outermost subscope accounts for itself and the subscopes in its body. -/
theorem sum_topSubscopes (n : Node) :
    (n.topSubscopes.map fun e => 1 + e.2.subscopeCount).sum = n.subscopeCount := by
  have hlist : ∀ cs : List Node,
      (∀ c ∈ cs, (c.topSubscopes.map fun e => 1 + e.2.subscopeCount).sum = c.subscopeCount) →
      ((topSubscopesAll cs).map fun e => 1 + e.2.subscopeCount).sum =
        (cs.map subscopeCount).sum := by
    intro cs ih
    induction cs with
    | nil => rfl
    | cons c cs ih' =>
      rw [topSubscopesAll, List.map_append, List.sum_append, ih c List.mem_cons_self,
        ih' fun x hx => ih x (List.mem_cons_of_mem _ hx), List.map_cons, List.sum_cons]
  induction n using Node.induct with
  | and cs d ih =>
    rw [subscopeCount_eq, topSubscopes, hlist cs ih]
    exact (Nat.zero_add _).symm
  | or cs d ih =>
    rw [subscopeCount_eq, topSubscopes, hlist cs ih]
    exact (Nat.zero_add _).symm
  | some k cs d ih =>
    rw [subscopeCount_eq, topSubscopes, hlist cs ih]
    exact (Nat.zero_add _).symm
  | not c d ih =>
    rw [subscopeCount_eq, topSubscopes, ih]
    simp [stmt, Statement.isSubscope, Statement.children]
  | subscope s b d ih =>
    rw [subscopeCount_eq ⟨.subscope s b, d⟩]
    simp [topSubscopes, stmt, Statement.isSubscope, Statement.children]
  | range f min max d | leaf f d => rfl

/-- The part of a body that is searched: below a subscope at the root. -/
def inner : Node → Node
  | ⟨.subscope _ body, _⟩ => body
  | n => n

theorem inner_of_not_subscope {n : Node} (h : n.stmt.isSubscope = false) : n.inner = n := by
  unfold inner
  split
  · cases h
  · rfl

theorem exists_subscope {n : Node} (h : n.stmt.isSubscope = true) :
    ∃ s b d, n = ⟨.subscope s b, d⟩ := by
  obtain ⟨stmt, d⟩ := n
  cases stmt <;> first | exact ⟨_, _, _, rfl⟩ | cases h

theorem Everywhere.inner {p : Statement Node → Prop} {n : Node} (h : n.Everywhere p) :
    n.inner.Everywhere p := by
  by_cases hs : n.stmt.isSubscope = true
  · obtain ⟨s, b, d, rfl⟩ := exists_subscope hs
    exact (everywhere_iff.mp h).2 b List.mem_cons_self
  · rwa [inner_of_not_subscope (Bool.eq_false_iff.mpr hs)]

theorem observed_inner {n : Node} {v : String} : v ∈ n.inner.observed ↔ v ∈ n.observed := by
  by_cases hs : n.stmt.isSubscope = true
  · obtain ⟨s, b, d, rfl⟩ := exists_subscope hs
    exact mem_observed_subscope.symm
  · rw [inner_of_not_subscope (Bool.eq_false_iff.mpr hs)]

theorem subscopeCount_inner_le (n : Node) : n.inner.subscopeCount ≤ n.subscopeCount := by
  by_cases hs : n.stmt.isSubscope = true
  · obtain ⟨s, b, d, rfl⟩ := exists_subscope hs
    rw [subscopeCount_eq ⟨.subscope s b, d⟩]
    simp [inner, stmt, Statement.children]
  · rw [inner_of_not_subscope (Bool.eq_false_iff.mpr hs)]

end Node

/-! ## Rules -/

/-- The rule made of an extracted subscope. -/
def syntheticOf (parent : String) (e : String × Scope × Node) : Rule :=
  subscopeRule e.1 e.2.1 e.2.2 parent

/-- What one turn makes of a rule: the new body, and the rules of its outermost subscopes. -/
structure Turn [ComDatabase] (rule rule' : Rule) (synthetic : List Rule) (body : Node) : Prop where
  expanded : expandComNode rule.body = .ok body
  synthetic_eq : synthetic = (named rule.name 0 body.inner.topSubscopes).map (syntheticOf rule.name)
  rule_eq : (body.stmt.isSubscope = false ∧
      rule' = rule.setBody (extractSingleChild rule.name body ⟨0, []⟩).1) ∨
    ∃ s b d, body = ⟨.subscope s b, d⟩ ∧
      rule' = rule.setBody ⟨.subscope s (extractSingleChild rule.name b ⟨0, []⟩).1, d⟩

section

variable [ComDatabase]

omit [ComDatabase] in
theorem extractChildren_of_not_subscope {ruleName : String} {n : Node} {st : Extraction}
    (h : n.stmt.isSubscope = false) :
    extractChildren ruleName n st = extractSingleChild ruleName n st := by
  unfold extractChildren
  split
  · cases h
  · rfl

theorem extractRule_ok {rule rule' : Rule} {synthetic : List Rule}
    (h : extractRule rule = .ok (rule', synthetic)) : ∃ body, Turn rule rule' synthetic body := by
  obtain ⟨body, hbody, h⟩ := Control.bind_eq_ok.mp h
  have hpair : (rule.setBody (extractChildren rule.name body ⟨0, []⟩).1,
      (extractChildren rule.name body ⟨0, []⟩).2.extracted.map (syntheticOf rule.name)) =
      (rule', synthetic) := Except.ok.inj h
  have hextracted : ∀ n : Node, (extractSingleChild rule.name n ⟨0, []⟩).2.extracted =
      named rule.name 0 n.topSubscopes := fun n => by
    rw [extract_extracted]
    rfl
  by_cases hsub : body.stmt.isSubscope = true
  · obtain ⟨s, b, d, rfl⟩ := exists_subscope hsub
    obtain ⟨hr, hs⟩ := Prod.mk.inj hpair
    refine ⟨_, hbody, ?_, Or.inr ⟨s, b, d, rfl, hr.symm⟩⟩
    rw [← hs]
    exact congrArg _ (hextracted b)
  · have hsub : body.stmt.isSubscope = false := Bool.eq_false_iff.mpr hsub
    rw [extractChildren_of_not_subscope hsub] at hpair
    obtain ⟨hr, hs⟩ := Prod.mk.inj hpair
    refine ⟨body, hbody, ?_, Or.inl ⟨hsub, hr.symm⟩⟩
    rw [← hs, hextracted, inner_of_not_subscope hsub]

/-- The rules `expand_and_extract` treats: the given ones, and what is extracted from a treated
    rule. -/
inductive Descends (rules : List Rule) : Rule → Prop
  | given {rule : Rule} (h : rule ∈ rules) : Descends rules rule
  | synthetic {rule rule' : Rule} {syn : List Rule} {s : Rule} (h : Descends rules rule)
      (hr : extractRule rule = .ok (rule', syn)) (hs : s ∈ syn) : Descends rules s

theorem Descends.mono {rules rules' : List Rule} {r : Rule} (h : Descends rules r)
    (hsub : ∀ r ∈ rules, Descends rules' r) : Descends rules' r := by
  induction h with
  | given h => exact hsub _ h
  | synthetic _ hr hs ih => exact .synthetic ih hr hs

/-- A turn on a rule costs one, and pushes rules that together cost one less. -/
theorem Turn.turns_le {rule rule' : Rule} {synthetic : List Rule} {body : Node}
    (h : Turn rule rule' synthetic body) : (synthetic.map Rule.turns).sum < rule.turns := by
  have hnamed : ∀ (k : Nat) (es : List (Scope × Node)),
      ((named rule.name k es).map fun e => (syntheticOf rule.name e).turns) =
        es.map fun e => 1 + e.2.subscopeCount := by
    intro k es
    induction es generalizing k with
    | nil => rfl
    | cons e es ih =>
      rw [named, List.map_cons, ih, List.map_cons]
      rfl
  have hsum : (synthetic.map Rule.turns).sum = body.inner.subscopeCount := by
    rw [h.synthetic_eq, List.map_map, ← sum_topSubscopes, ← hnamed 0]
    rfl
  have hle : body.inner.subscopeCount ≤ body.subscopeCount := subscopeCount_inner_le body
  have heq : body.subscopeCount = rule.body.subscopeCount := (expandComNode_ok h.expanded).subscopes
  unfold Rule.turns at hsum ⊢
  omega

theorem not_descends_nil {r : Rule} : ¬ Descends [] r := by
  intro h
  induction h with
  | given h => exact List.not_mem_nil h
  | synthetic _ _ _ ih => exact ih

/-- Treating the top of the stack replaces it by its synthetic rules. -/
theorem descends_cons {rule rule' : Rule} {syn stack : List Rule}
    (hr : extractRule rule = .ok (rule', syn)) {r : Rule} :
    Descends (rule :: stack) r ↔ r = rule ∨ Descends (syn.reverse ++ stack) r := by
  constructor
  · intro h
    induction h with
    | given h =>
      rcases List.mem_cons.mp h with rfl | h
      · exact Or.inl rfl
      · exact Or.inr (.given (List.mem_append_right _ h))
    | synthetic _ hp hs ih =>
      rcases ih with rfl | ih
      · obtain ⟨_, rfl⟩ := Prod.mk.inj (Except.ok.inj (hp.symm.trans hr))
        exact Or.inr (.given (List.mem_append_left _ (List.mem_reverse.mpr hs)))
      · exact Or.inr (.synthetic ih hp hs)
  · rintro (rfl | h)
    · exact .given List.mem_cons_self
    · refine h.mono fun s hs => ?_
      rcases List.mem_append.mp hs with hs | hs
      · exact .synthetic (.given List.mem_cons_self) hr (List.mem_reverse.mp hs)
      · exact .given (List.mem_cons_of_mem _ hs)

/-- With fuel for every turn, the loop treats exactly what descends from the stack, and puts what
    it makes of each of these rules behind what is done. -/
theorem extractLoop_spec {fuel : Nat} {stack done es : List Rule}
    (hf : (stack.map Rule.turns).sum ≤ fuel) (h : extractLoop fuel stack done = .ok es) :
    ∃ treated fin, es = done ++ fin ∧
      List.Forall₂ (fun r e => ∃ syn, extractRule r = .ok (e, syn)) treated fin ∧
        ∀ r, r ∈ treated ↔ Descends stack r := by
  have hnil : ∀ r : Rule, r ∈ ([] : List Rule) ↔ Descends [] r := fun r =>
    iff_of_false List.not_mem_nil not_descends_nil
  induction fuel generalizing stack done with
  | zero =>
    cases stack with
    | nil =>
      obtain rfl : done = es := Except.ok.inj h
      exact ⟨[], [], (List.append_nil _).symm, .nil, hnil⟩
    | cons rule stack =>
      rw [List.map_cons, List.sum_cons, Rule.turns] at hf
      omega
  | succ fuel ih =>
    cases stack with
    | nil =>
      obtain rfl : done = es := Except.ok.inj h
      exact ⟨[], [], (List.append_nil _).symm, .nil, hnil⟩
    | cons rule stack =>
      obtain ⟨⟨rule', syn⟩, hr, h⟩ := Control.bind_eq_ok.mp h
      obtain ⟨body, hturn⟩ := extractRule_ok hr
      have hlt : (syn.map Rule.turns).sum < rule.turns := hturn.turns_le
      have hsum : ((syn.reverse ++ stack).map Rule.turns).sum ≤ fuel := by
        rw [List.map_cons, List.sum_cons] at hf
        rw [List.map_append, List.sum_append, List.map_reverse, List.sum_reverse]
        omega
      obtain ⟨treated, fin, rfl, hall, hmem⟩ := ih hsum h
      refine ⟨rule :: treated, rule' :: fin, List.append_assoc _ [rule'] fin, .cons ⟨syn, hr⟩ hall,
        fun r => ?_⟩
      rw [List.mem_cons, hmem, descends_cons hr]

end

/-! ## The optimizer -/

theorem optimizeChildren_eq (cs : List Node) :
    optimizeChildren cs = cs.map fun c => (nodeCost c, optimizeNode c) := by
  induction cs with
  | nil => rfl
  | cons c cs ih => rw [optimizeChildren, ih, List.map_cons]

/-- Sorting by cost only reorders. -/
theorem sortByCost_perm (cs : List Node) :
    (sortByCost (optimizeChildren cs)).Perm (cs.map optimizeNode) := by
  have hperm := (List.perm_insertionSort (fun a b : UInt32 × Node => a.1 ≤ b.1)
    (optimizeChildren cs)).map (·.2)
  rw [optimizeChildren_eq, List.map_map] at hperm
  rw [optimizeChildren_eq]
  exact hperm

theorem mem_sortByCost {cs : List Node} {c' : Node} :
    c' ∈ sortByCost (optimizeChildren cs) ↔ ∃ c ∈ cs, optimizeNode c = c' := by
  rw [(sortByCost_perm cs).mem_iff, List.mem_map]

/-- A reading that only counts the children of a `some` is kept. -/
theorem optimizeNode_reads {R : Reading} (hR : ∀ k l l', List.Perm l l' → R.some k l = R.some k l')
    (hsub : ∀ s b, R.subscope s (optimizeNode b) = R.subscope s b) (n : Node) :
    (optimizeNode n).reads R = n.reads R := by
  have hmap : ∀ cs : List Node, (∀ c ∈ cs, (optimizeNode c).reads R = c.reads R) →
      ((sortByCost (optimizeChildren cs)).map (reads R)).Perm (cs.map (reads R)) := by
    intro cs ih
    have h := (sortByCost_perm cs).map (reads R)
    rw [List.map_map] at h
    rw [List.map_congr_left (g := reads R ∘ optimizeNode) fun c hc => (ih c hc).symm]
    exact h
  induction n using Node.induct with
  | and cs d ih =>
    rw [optimizeNode, reads, reads, readsAll_eq, readsAll_eq]
    exact (hmap cs ih).all_eq
  | or cs d ih =>
    rw [optimizeNode, reads, reads, readsAll_eq, readsAll_eq]
    exact (hmap cs ih).any_eq
  | some k cs d ih =>
    rw [optimizeNode, reads_some, reads_some]
    exact hR k _ _ (hmap cs ih)
  | not c d ih => rw [optimizeNode, reads_not, reads_not, ih]
  | subscope s b d ih => rw [optimizeNode, reads_subscope, reads_subscope, hsub]
  | range f min max d | leaf f d => rfl

theorem optimizeNode_observed {n : Node} {v : String} :
    v ∈ (optimizeNode n).observed ↔ v ∈ n.observed := by
  have hlist : ∀ cs : List Node, (∀ c ∈ cs, v ∈ (optimizeNode c).observed ↔ v ∈ c.observed) →
      ((∃ c' ∈ sortByCost (optimizeChildren cs), v ∈ c'.observed) ↔ ∃ c ∈ cs, v ∈ c.observed) := by
    intro cs ih
    constructor
    · rintro ⟨c', hc', hv⟩
      obtain ⟨c, hc, rfl⟩ := mem_sortByCost.mp hc'
      exact ⟨c, hc, (ih c hc).mp hv⟩
    · rintro ⟨c, hc, hv⟩
      exact ⟨_, mem_sortByCost.mpr ⟨c, hc, rfl⟩, (ih c hc).mpr hv⟩
  induction n using Node.induct with
  | and cs d ih =>
    rw [optimizeNode, mem_observed_and, mem_observed_and]
    exact hlist cs ih
  | or cs d ih =>
    rw [optimizeNode, mem_observed_or, mem_observed_or]
    exact hlist cs ih
  | some k cs d ih =>
    rw [optimizeNode, mem_observed_some, mem_observed_some]
    exact hlist cs ih
  | not c d ih =>
    rw [optimizeNode, mem_observed_not, mem_observed_not]
    exact ih
  | subscope s b d ih =>
    rw [optimizeNode, mem_observed_subscope, mem_observed_subscope]
    exact ih
  | range f min max d | leaf f d => rfl

theorem optimizeNode_evaluable {n : Node} (h : n.Evaluable) : (optimizeNode n).Evaluable := by
  induction n using Node.induct with
  | and cs d ih | or cs d ih | some k cs d ih =>
    refine everywhere_iff.mpr ⟨rfl, fun c' hc' => ?_⟩
    obtain ⟨c, hc, rfl⟩ := mem_sortByCost.mp hc'
    exact ih c hc (h.children hc)
  | not c d ih =>
    refine everywhere_iff.mpr ⟨rfl, fun c' hc' => ?_⟩
    rw [List.mem_singleton.mp hc']
    exact ih (h.children List.mem_cons_self)
  | subscope s b d ih => exact absurd h not_evaluable_subscope
  | range f min max d | leaf f d => exact h

/-! ## The expanded list -/

section

variable [ComDatabase]

/-- `e` is what the expansion makes of the rule `r` itself. -/
def FinishesAs (r e : Rule) : Prop :=
  ∃ r' syn, extractRule r = .ok (r', syn) ∧ e = r'.setBody (optimizeNode r'.body)

theorem FinishesAs.unique {r e e' : Rule} (h : FinishesAs r e) (h' : FinishesAs r e') : e = e' := by
  obtain ⟨r1, syn1, hr1, rfl⟩ := h
  obtain ⟨r2, syn2, hr2, rfl⟩ := h'
  obtain ⟨rfl, _⟩ := Prod.mk.inj (Except.ok.inj (hr1.symm.trans hr2))
  rfl

/-- The expanded list holds the finished forms of the rules that descend from the given ones, one
    for each of them. -/
theorem expandAndExtract_treated {rules es : List Rule} (h : expandAndExtract rules = .ok es) :
    ∃ treated, List.Forall₂ FinishesAs treated es ∧ ∀ r, r ∈ treated ↔ Descends rules r := by
  obtain ⟨done, hdone, h⟩ := Control.bind_eq_ok.mp h
  obtain rfl := Except.ok.inj h
  have hf : (rules.reverse.map Rule.turns).sum ≤ (rules.map Rule.turns).sum := by
    rw [List.map_reverse, List.sum_reverse]
  obtain ⟨treated, fin, rfl, hall, hmem⟩ := extractLoop_spec hf hdone
  refine ⟨treated, ?_, fun r => ?_⟩
  · refine List.forall₂_map_right_iff.mpr (hall.imp ?_)
    exact fun r r' ⟨syn, hr⟩ => ⟨r', syn, hr, rfl⟩
  · rw [hmem]
    exact ⟨fun h => h.mono fun s hs => .given (List.mem_reverse.mp hs),
      fun h => h.mono fun s hs => .given (List.mem_reverse.mpr hs)⟩

/-- The expanded list holds exactly the finished forms of the rules that descend from the given
    ones, and all of these can be finished. -/
theorem expandAndExtract_spec {rules es : List Rule} (h : expandAndExtract rules = .ok es) :
    (∀ e, e ∈ es ↔ ∃ r, Descends rules r ∧ FinishesAs r e) ∧
      ∀ r, Descends rules r → ∃ r' syn, extractRule r = .ok (r', syn) := by
  obtain ⟨treated, hall, hmem⟩ := expandAndExtract_treated h
  refine ⟨fun e => ⟨fun he => ?_, fun ⟨r, hr, hre⟩ => ?_⟩, fun r hr => ?_⟩
  · obtain ⟨r, hr, hre⟩ := forall₂_mem_right hall he
    exact ⟨r, (hmem r).mp hr, hre⟩
  · obtain ⟨e', he', hre'⟩ := forall₂_mem_left hall ((hmem r).mpr hr)
    exact hre.unique hre' ▸ he'
  · obtain ⟨e, _, r', syn, hext, _⟩ := forall₂_mem_left hall ((hmem r).mpr hr)
    exact ⟨r', syn, hext⟩

/-- A finished rule keeps everything but its body. -/
structure FinishesAs.Keeps (r e : Rule) : Prop where
  name : e.name = r.name
  namespace_ : e.namespace_ = r.namespace_
  scopes : e.scopes = r.scopes
  isSubscopeRule : e.isSubscopeRule = r.isSubscopeRule

omit [ComDatabase] in
theorem FinishesAs.Keeps.setBody {r r' : Rule} (h : ∃ b, r' = r.setBody b) (b : Node) :
    FinishesAs.Keeps r (r'.setBody b) := by
  obtain ⟨b', rfl⟩ := h
  exact ⟨rfl, rfl, rfl, rfl⟩

theorem FinishesAs.keeps {r e : Rule} (h : FinishesAs r e) : FinishesAs.Keeps r e := by
  obtain ⟨r', syn, hr, rfl⟩ := h
  obtain ⟨body, hturn⟩ := extractRule_ok hr
  refine .setBody ?_ _
  rcases hturn.rule_eq with ⟨_, h⟩ | ⟨s, b, d, _, h⟩
  · exact ⟨_, h⟩
  · exact ⟨_, h⟩

/-- A finished body can be evaluated unless it is a subscope, which it is exactly when the body
    it comes from is one. -/
theorem FinishesAs.body {r e : Rule} (h : FinishesAs r e) :
    (r.body.stmt.isSubscope = true ∧ e.body.stmt.isSubscope = true) ∨
      (r.body.stmt.isSubscope = false ∧ e.body.Evaluable) := by
  obtain ⟨r', syn, hr, rfl⟩ := h
  obtain ⟨body, hturn⟩ := extractRule_ok hr
  have hexp := expandComNode_ok hturn.expanded
  rcases hturn.rule_eq with ⟨hs, rfl⟩ | ⟨s, b, d, rfl, rfl⟩
  · refine Or.inr ⟨hexp.root ▸ hs, ?_⟩
    exact optimizeNode_evaluable (extract_evaluable hexp.noCom)
  · exact Or.inl ⟨hexp.root ▸ rfl, rfl⟩

/-! ### Finished rules and the rules extracted from them -/

/-- The match values a finished rule looks at: those of the rule, and the names of the rules
    extracted from it. -/
theorem FinishesAs.observed {r e : Rule} (h : FinishesAs r e) {v : String}
    (hv : v ∈ e.body.observed) :
    v ∈ r.body.observed ∨ ∃ r' syn, extractRule r = .ok (r', syn) ∧ ∃ s ∈ syn, s.name = v := by
  obtain ⟨r', syn, hr, rfl⟩ := h
  obtain ⟨body, hturn⟩ := extractRule_ok hr
  have hexp := expandComNode_ok hturn.expanded
  have hv : v ∈ r'.body.observed := optimizeNode_observed.mp hv
  have hext : v ∈ (extractSingleChild r.name body.inner ⟨0, []⟩).1.observed := by
    rcases hturn.rule_eq with ⟨hs, rfl⟩ | ⟨s, b, d, rfl, rfl⟩
    · rwa [inner_of_not_subscope hs]
    · exact mem_observed_subscope.mp hv
  rcases extract_observed hext with hv | ⟨e, he, hname⟩
  · exact Or.inl ((hexp.observed v).mp (observed_inner.mp hv))
  · refine Or.inr ⟨r', syn, hr, syntheticOf r.name e, ?_, hname⟩
    rw [hturn.synthetic_eq]
    exact List.mem_map_of_mem he

/-- A finished rule looks at every rule extracted from it. -/
theorem FinishesAs.observes_synthetic {r e r' s : Rule} {syn : List Rule} (h : FinishesAs r e)
    (hr : extractRule r = .ok (r', syn)) (hs : s ∈ syn) : s.name ∈ e.body.observed := by
  obtain ⟨r1, syn1, hr1, rfl⟩ := h
  obtain ⟨rfl, rfl⟩ := Prod.mk.inj (Except.ok.inj (hr.symm.trans hr1))
  obtain ⟨body, hturn⟩ := extractRule_ok hr
  rw [hturn.synthetic_eq] at hs
  obtain ⟨e, he, rfl⟩ := List.mem_map.mp hs
  have hext : e.1 ∈ (extractSingleChild r.name body.inner ⟨0, []⟩).1.observed :=
    extract_observes_names he
  refine optimizeNode_observed.mpr ?_
  rcases hturn.rule_eq with ⟨hsub, rfl⟩ | ⟨s, b, d, rfl, rfl⟩
  · rwa [inner_of_not_subscope hsub] at hext
  · exact mem_observed_subscope.mpr hext

/-- An extracted rule looks at match values of the rule it comes from, and takes fewer turns. -/
theorem extractRule_synthetic {r r' s : Rule} {syn : List Rule}
    (hr : extractRule r = .ok (r', syn)) (hs : s ∈ syn) :
    (∀ v ∈ s.body.observed, v ∈ r.body.observed) ∧ s.turns < r.turns ∧ s.namespace_ = none := by
  obtain ⟨body, hturn⟩ := extractRule_ok hr
  have hexp := expandComNode_ok hturn.expanded
  have hlt : s.turns ≤ (syn.map Rule.turns).sum :=
    List.single_le_sum (fun _ _ => Nat.zero_le _) _ (List.mem_map_of_mem hs)
  have hsum := hturn.turns_le
  rw [hturn.synthetic_eq] at hs
  obtain ⟨e, he, rfl⟩ := List.mem_map.mp hs
  have htop : (e.2.1, e.2.2) ∈ body.inner.topSubscopes := by
    rw [← map_named r.name 0 body.inner.topSubscopes]
    exact List.mem_map_of_mem he
  refine ⟨fun v hv => ?_, by omega, rfl⟩
  exact (hexp.observed v).mp (observed_inner.mp (observed_of_topSubscopes htop hv))

theorem Descends.origin {rules : List Rule} {r : Rule} (h : Descends rules r) :
    ∃ g ∈ rules, Descends [g] r := by
  induction h with
  | given h => exact ⟨_, h, .given List.mem_cons_self⟩
  | synthetic _ hr hs ih =>
    obtain ⟨g, hg, hd⟩ := ih
    exact ⟨g, hg, hd.synthetic hr hs⟩

theorem Descends.of_origin {rules : List Rule} {g r : Rule} (hg : g ∈ rules)
    (h : Descends [g] r) : Descends rules r :=
  h.mono fun _ hs => .given (List.mem_singleton.mp hs ▸ hg)

/-- What a rule looks at, the rule it descends from looks at. -/
theorem Descends.observed {g r : Rule} (h : Descends [g] r) {v : String}
    (hv : v ∈ r.body.observed) : v ∈ g.body.observed := by
  induction h with
  | given h => exact List.mem_singleton.mp h ▸ hv
  | synthetic _ hr hs ih => exact ih ((extractRule_synthetic hr hs).1 v hv)

/-- Only given rules have a namespace. -/
theorem Descends.mem_of_namespace {rules : List Rule} {r : Rule} (h : Descends rules r)
    (hn : r.namespace_ ≠ none) : r ∈ rules := by
  cases h with
  | given h => exact h
  | synthetic _ hr hs => exact absurd (extractRule_synthetic hr hs).2.2 hn

end

end CapaX
