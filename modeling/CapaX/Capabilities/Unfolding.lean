import CapaX.Capabilities.Meaning
import CapaX.Capabilities.Order

/-
  The expanded list means what the given rules mean. A rule of the expanded list is made of one
  rule that descends from the given ones (`Expansion.source_unique`), and it matches where that
  rule's own body holds (`sourceTruth`), subscopes in place. Read with this truth, the expanded
  bodies satisfy the equation of `Rule.matchesAt_eq`, without a subscope left in them
  (`Expansion.sourceTruth_eq_holds`).
-/

namespace CapaX

open Collections Node

section

variable [ComDatabase] {rules es : List Rule}

theorem names_eq {rs : List Rule} (h : List.Forall₂ FinishesAs rs es) :
    rs.map (·.name) = es.map (·.name) := by
  induction h with
  | nil => rfl
  | cons hf _ ih => rw [List.map_cons, List.map_cons, hf.keeps.name, ih]

namespace Expansion

theorem source_unique (h : Expansion rules es) {r s : Rule} (hr : Descends rules r)
    (hs : Descends rules s) (he : r.name = s.name) : r = s := by
  obtain ⟨treated, hall, hmem⟩ := expandAndExtract_treated h.expanded
  have hnames : treated.map (·.name) = es.map (·.name) := names_eq hall
  have hnodup : (treated.map (·.name)).Nodup := hnames ▸ h.names.nodup
  exact List.inj_on_of_nodup_map hnodup ((hmem r).mpr hr) ((hmem s).mpr hs) he

/-- The given rules share no name with a namespace when the expanded ones do not. -/
theorem namesUnshared (h : Expansion rules es) (hu : NamesUnshared es) : NamesUnshared rules := by
  intro a ha b hb
  obtain ⟨ea, hea, hfa⟩ := h.untangled.finished (.given ha)
  obtain ⟨eb, heb, hfb⟩ := h.untangled.finished (.given hb)
  have hnot := hu ea hea eb heb
  rwa [hfa.keeps.name, Rule.namespaces, hfb.keeps.namespace_] at hnot

end Expansion

end

section

variable {υ : Type} [ComDatabase] [RegexBackend] {rules es : List Rule}

/-- What a rule of the accepted list, or one extracted from it, says at a unit. -/
def Rule.saysAt (H : Hierarchy υ) (rules : List Rule) (r : Rule) (u : υ) : Bool :=
  r.scopes.contains (H.scope u) &&
    H.holds (Hierarchy.matchedBy rules (Rule.matchesAt H rules)) r.body u

/-- The truth of a finished rule is what the rule it is made of says. -/
noncomputable def sourceTruth (H : Hierarchy υ) (rules : List Rule) (e : Rule) (u : υ) : Bool :=
  @decide (∃ r, Descends rules r ∧ FinishesAs r e ∧ r.saysAt H rules u = true)
    (Classical.propDecidable _)

namespace Expansion

variable {H : Hierarchy υ}

theorem sourceTruth_eq (h : Expansion rules es) {r e : Rule} (hr : Descends rules r)
    (hf : FinishesAs r e) (u : υ) : sourceTruth H rules e u = r.saysAt H rules u := by
  rw [Bool.eq_iff_iff]
  refine (@decide_eq_true_iff _ (Classical.propDecidable _)).trans ?_
  constructor
  · intro ⟨s, hs, hfs, hsaid⟩
    rwa [h.source_unique hr hs (hf.keeps.name.symm.trans hfs.keeps.name)]
  · exact fun hsaid => ⟨r, hr, hf, hsaid⟩

/-- A value the given rules look at is matched alike by the two lists. -/
theorem matchedBy_sourceTruth (h : Expansion rules es) (hu : NamesUnshared es) {g : Rule}
    (hg : g ∈ rules) {v : String} (hv : v ∈ g.body.observed) (u : υ) :
    Hierarchy.matchedBy es (sourceTruth H rules) v u =
      Hierarchy.matchedBy rules (Rule.matchesAt H rules) v u := by
  have hur := h.namesUnshared hu
  have hsaid : ∀ r ∈ rules, r.matchesAt H rules u = r.saysAt H rules u := fun r hr =>
    Rule.matchesAt_eq h.accepts hur hr u
  rw [Bool.eq_iff_iff, Hierarchy.matchedBy_eq_true, Hierarchy.matchedBy_eq_true]
  constructor
  · intro ⟨e, he, hpub, ht⟩
    obtain ⟨r, hr, hf⟩ := h.untangled.mem_iff.mp he
    have hpubr : v ∈ r.published := by
      rwa [Rule.published, Rule.namespaces, hf.keeps.name, hf.keeps.namespace_] at hpub
    -- a rule extracted from a subscope has a name no given rule asks for
    have hmem : r ∈ rules := by
      rcases List.mem_cons.mp hpubr with hname | hns
      · have hnot : ∀ b ∈ rules, v ∉ b.prefixes := by
          intro b hb hvb
          obtain ⟨eb, heb, hfb⟩ := h.untangled.finished (.given hb)
          refine hu e he eb heb ?_
          rw [hf.keeps.name, ← hname, Rule.namespaces, hfb.keeps.namespace_]
          exact (Rule.mem_prefixes.mp hvb).1
        have hdep : v ∈ getDependencies g.body (indexRulesByNamespace rules) :=
          mem_getDependencies.mpr ⟨v, hv, mem_referents.mpr (Or.inr ⟨rfl, hnot⟩)⟩
        obtain ⟨b, hb, hbname⟩ := h.accepts.met g hg v hdep
        rwa [h.source_unique hr (.given hb) (hname.symm.trans hbname.symm)]
      · refine hr.mem_of_namespace fun hnone => ?_
        rw [Rule.namespaces, hnone] at hns
        exact List.not_mem_nil hns
    refine ⟨r, hmem, hpubr, ?_⟩
    rw [hsaid r hmem, ← h.sourceTruth_eq hr hf]
    exact ht
  · intro ⟨r, hr, hpub, ht⟩
    obtain ⟨e, he, hf⟩ := h.untangled.finished (.given hr)
    refine ⟨e, he, ?_, ?_⟩
    · rwa [Rule.published, Rule.namespaces, hf.keeps.name, hf.keeps.namespace_]
    · rw [h.sourceTruth_eq (.given hr) hf, ← hsaid r hr]
      exact ht

/-- The name of an extracted rule stands for its subscope. -/
theorem matchedBy_synthetic (h : Expansion rules es) (hu : NamesUnshared es) {r r' s : Rule}
    {syn : List Rule} (hr : Descends rules r) (hext : extractRule r = .ok (r', syn)) (hs : s ∈ syn)
    (u : υ) : Hierarchy.matchedBy es (sourceTruth H rules) s.name u = s.saysAt H rules u := by
  have hds : Descends rules s := .synthetic hr hext hs
  obtain ⟨e, he, hf⟩ := h.untangled.finished hds
  rw [← h.sourceTruth_eq hds hf, Bool.eq_iff_iff, Hierarchy.matchedBy_eq_true]
  constructor
  · intro ⟨e', he', hpub, ht⟩
    rcases List.mem_cons.mp hpub with hname | hns
    · rwa [h.untangled.unique he he' (hf.keeps.name.trans hname)]
    · exact absurd (hf.keeps.name ▸ hns) (hu e he e' he')
  · exact fun ht => ⟨e, he, List.mem_cons.mpr (Or.inl hf.keeps.name.symm), ht⟩

/-- The expanded bodies hold where the bodies they are made of do. -/
theorem sourceTruth_eq_holds (h : Expansion rules es) (hu : NamesUnshared es) {e : Rule}
    (he : e ∈ es) (u : υ) :
    sourceTruth H rules e u = (e.scopes.contains (H.scope u) &&
      H.holds (Hierarchy.matchedBy es (sourceTruth H rules)) e.body u) := by
  obtain ⟨r, hr, hf⟩ := h.untangled.mem_iff.mp he
  obtain ⟨g, hg, hd⟩ := hr.origin
  rw [h.sourceTruth_eq hr hf, Rule.saysAt, hf.keeps.scopes]
  refine congrArg (r.scopes.contains (H.scope u) && ·) ?_
  obtain ⟨r', syn, hext, rfl⟩ := hf
  obtain ⟨body, hturn⟩ := extractRule_ok hext
  have hexp := expandComNode_ok hturn.expanded
  have hbody : ∀ u, H.holds (Hierarchy.matchedBy rules (Rule.matchesAt H rules)) body u = _ :=
    Hierarchy.holds_expandComNode hturn.expanded
  rw [Rule.setBody_body, Hierarchy.holds_optimizeNode, ← hbody]
  have hextract : ∀ u, H.holds (Hierarchy.matchedBy es (sourceTruth H rules))
      (extractSingleChild r.name body.inner ⟨0, []⟩).1 u =
        H.holds (Hierarchy.matchedBy rules (Rule.matchesAt H rules)) body.inner u := by
    refine Hierarchy.holds_extract (fun x hx u' => ?_) fun v hv u' => ?_
    · have hs : syntheticOf r.name x ∈ syn := by
        rw [hturn.synthetic_eq]
        exact List.mem_map_of_mem hx
      have hsaid := h.matchedBy_synthetic hu hr hext hs u' (H := H)
      refine hsaid.trans ?_
      rw [Rule.saysAt]
      refine congrArg₂ (· && ·) ?_ rfl
      rw [Bool.eq_iff_iff, decide_eq_true_eq]
      exact Scopes.contains_ofSubscope
    · refine h.matchedBy_sourceTruth hu hg (hd.observed ?_) u'
      exact (hexp.observed v).mp (observed_inner.mp hv)
  rcases hturn.rule_eq with ⟨hs, rfl⟩ | ⟨s, b, d, rfl, rfl⟩
  · rw [inner_of_not_subscope hs] at hextract
    exact (hextract u).symm
  · have hextract : ∀ u, H.holds (Hierarchy.matchedBy es (sourceTruth H rules))
        (extractSingleChild r.name b ⟨0, []⟩).1 u =
          H.holds (Hierarchy.matchedBy rules (Rule.matchesAt H rules)) b u := hextract
    rw [Rule.setBody_body, Hierarchy.holds, Hierarchy.holds]
    simp only [hextract]

end Expansion

end

end CapaX
