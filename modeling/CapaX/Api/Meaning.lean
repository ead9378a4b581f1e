import CapaX.Api
import CapaX.Capabilities.StaticMeaning

/-
  What the document of a static sample says. `document_means` goes from the rules as they are
  written to the document: it lists a rule at exactly the units of the sample where the meaning of
  the rule holds, whatever was compiled, extracted, published and rendered in between, and it lists
  nothing else.
-/

namespace CapaX

open Collections Control

/-- A finished rule is the rule with another body. -/
theorem FinishesAs.eq_setBody [ComDatabase] {r e : Rule} (h : FinishesAs r e) :
    e = r.setBody e.body := by
  obtain ⟨r', syn, hr, rfl⟩ := h
  obtain ⟨expanded, _, hr⟩ := bind_eq_ok.mp hr
  obtain ⟨rfl, _⟩ := Prod.mk.inj (Except.ok.inj hr)
  rfl

/-- The rules of subscopes say that they are. -/
theorem isSubscopeRule_of_synthetic [ComDatabase] {r r' s : Rule} {syn : List Rule}
    (hr : extractRule r = .ok (r', syn)) (hs : s ∈ syn) : s.isSubscopeRule = true := by
  obtain ⟨expanded, _, hr⟩ := bind_eq_ok.mp hr
  obtain ⟨_, rfl⟩ := Prod.mk.inj (Except.ok.inj hr)
  obtain ⟨e, _, rfl⟩ := List.mem_map.mp hs
  rfl

theorem ResultDocument.map_fst_renderMatches {set : MatchingRuleSet} {results : MatchResults}
    {depth : Nat} {res : List (Address × MatchResult)} {rendered : List (Address × Match)}
    (h : renderMatches set results depth res = .ok rendered) :
    rendered.map (·.1) = res.map (·.1) := by
  have hall := mapM_eq_ok h
  clear h
  induction hall with
  | nil => rfl
  | @cons r x res rendered hx _ ih =>
    obtain ⟨m, _, hx⟩ := bind_eq_ok.mp hx
    obtain rfl := Except.ok.inj hx
    rw [List.map_cons, List.map_cons, ih]

namespace Api

open ResultDocument

section

variable [ComDatabase] [RegexBackend] {rules es : List Rule} {set : MatchingRuleSet}

omit [ComDatabase] in
theorem FindsStatic.eq {jobs : Jobs} {freeze : StaticFeatures} {orders : StaticOrders}
    {r : Except CapabilityError StaticCapabilities} (h : FindsStatic jobs set freeze orders r) :
    r = findStaticCapabilities set freeze orders := by
  obtain ⟨hmap⟩ := h
  rw [tryMap_iff.mp hmap]
  rfl

omit [ComDatabase] in
/-- An analysis of a static sample gives the documents of the matches its driver finds. -/
theorem builds_static {input : Input} {parsed : LoadedInput} {resolvedFormat timestamp : String}
    {depth : Nat} {options : AnalysisOptions} {sample : Sample} {freeze : StaticFeatures}
    (hfreeze : parsed.freeze = .static_ sample freeze) {doc : Document} :
    BuildsResultDocument input set parsed resolvedFormat timestamp depth options (.ok doc) ↔
      ∃ orders after caps, findStaticCapabilities set freeze orders = .ok caps ∧
        staticDocument input set resolvedFormat timestamp depth options sample freeze
          parsed.libraryFunctions after caps = .ok doc := by
  constructor
  · intro h
    generalize hr : Except.ok doc = r at h
    cases h with
    | static_ orders after hfreeze' hfinds =>
      obtain ⟨rfl, rfl⟩ := Freeze.static_.inj (hfreeze.symm.trans hfreeze')
      obtain ⟨caps, hcaps, hdoc⟩ := bind_eq_ok.mp hr.symm
      exact ⟨orders, after, caps, hfinds.eq ▸ mapError_eq_ok.mp hcaps, mapError_eq_ok.mp hdoc⟩
    | dynamic orders after hfreeze' => cases hfreeze.symm.trans hfreeze'
  · intro ⟨orders, after, caps, hrun, hdoc⟩
    have hfinds : FindsStatic options.jobs set freeze orders (.ok caps) :=
      hrun ▸ ⟨tryMap_iff.mpr rfl⟩
    have hresult : staticResult input set resolvedFormat timestamp depth options sample freeze
        parsed.libraryFunctions after (.ok caps) = .ok doc := mapError_eq_ok.mpr hdoc
    exact hresult ▸ .static_ orders after hfreeze hfinds

/-- With distinct expanded names, none of them a namespace, an analysis of a static sample that
    gives a document has each given rule that is no subscope rule in it at the addresses of the
    units where it matches; all it has are given rules, as they are written but for the body. -/
theorem document_means (hset : MatchingRuleSet.new rules = .ok set)
    (hes : expandAndExtract rules = .ok es) (hn : (es.map (·.name)).Nodup) (hu : NamesUnshared es)
    {input : Input} {parsed : LoadedInput} {resolvedFormat timestamp : String} {depth : Nat}
    {options : AnalysisOptions} {sample : Sample} {freeze : StaticFeatures}
    (hfree : freeze.NoMatches) (hfreeze : parsed.freeze = .static_ sample freeze) {doc : Document}
    (h : BuildsResultDocument input set parsed resolvedFormat timestamp depth options (.ok doc)) :
    (∀ r ∈ rules, r.isSubscopeRule = false →
      (doc.rules.get? r.name).elim [] (fun rm => rm.matches_.map (·.1)) =
        (freeze.units.filter (r.matchesAt (codeHierarchy freeze) rules)).map
          (codeHierarchy freeze).addr) ∧
      ∀ name rm, doc.rules.get? name = some rm → rm.matches_ ≠ [] ∧
        ∃ r ∈ rules, r.name = name ∧ r.isSubscopeRule = false ∧
          rm.rule = r.setBody rm.rule.body := by
  obtain ⟨orders, after, caps, hrun, hbuilt⟩ := (builds_static hfreeze).mp h
  obtain ⟨found, hdoc, hbuilt⟩ := bind_eq_ok.mp hbuilt
  obtain rfl : found = doc.rules := congrArg Document.rules (Except.ok.inj hbuilt)
  obtain ⟨haccepts, es0, hes0, rfl⟩ := MatchingRuleSet.new_ok hset
  obtain rfl : es0 = es := Except.ok.inj (hes0.symm.trans hes)
  have hex : Expansion rules es0 := ⟨haccepts, hes0, hn, fun e _ v _ a ha hname b hb =>
    hname ▸ hu a ha b hb⟩
  have hcollects := findStaticCapabilities_collects hex hu hfree hrun
  constructor
  · intro r hr hsub
    obtain ⟨e, he, hf⟩ := hex.untangled.finished (.given hr)
    have hneeded : Needed es0 e.name :=
      hex.untangled.needed_of_origin hr hsub (.given (List.mem_singleton_self r)) hf
    have haddrs := hcollects.addrs e ⟨he, (mem_scopeRuleNames hn).mpr hneeded⟩
    have hmeaning : freeze.units.filter (sourceTruth (codeHierarchy freeze) rules e) =
        freeze.units.filter (r.matchesAt (codeHierarchy freeze) rules) := by
      refine List.filter_congr fun u _ => (hex.sourceTruth_eq (.given hr) hf u).trans ?_
      exact (Rule.matchesAt_eq haccepts (hex.namesUnshared hu) hr u).symm
    rw [hf.keeps.name, hmeaning] at haddrs
    rw [← haddrs]
    have hget : (MatchingRuleSet.ofExpanded es0).get r.name = some e := by
      rw [← hf.keeps.name]
      exact hex.untangled.index he
    cases hres : caps.results.get? r.name with
    | none =>
      have hnone : doc.rules.get? r.name = none := by
        refine Option.eq_none_iff_forall_ne_some.mpr fun rm hrm => ?_
        obtain ⟨res, hres', _⟩ := rule_of_document hdoc hrm
        rw [hres] at hres'
        cases hres'
      rw [hnone]
      rfl
    | some res =>
      obtain ⟨rm, hrm⟩ := mem_document hdoc hres hget (hf.keeps.isSubscopeRule.trans hsub)
      obtain ⟨res', hres', _, _, hrendered⟩ := rule_of_document hdoc hrm
      obtain rfl := Option.some.inj (hres.symm.trans hres')
      rw [hrm]
      exact map_fst_renderMatches hrendered
  · intro name rm hrm
    obtain ⟨res, hres, hget, hsub, hrendered⟩ := rule_of_document hdoc hrm
    obtain ⟨he, hname⟩ := indexByName_some hget
    refine ⟨fun hnil => ?_, ?_⟩
    · have haddrs := map_fst_renderMatches hrendered
      rw [hnil] at haddrs
      exact (hcollects.listed name res hres).1 (List.map_eq_nil_iff.mp haddrs.symm)
    · obtain ⟨r, hr, hf⟩ := hex.untangled.mem_iff.mp he
      cases hr with
      | given hr =>
        exact ⟨r, hr, hf.keeps.name.symm.trans hname, hf.keeps.isSubscopeRule.symm.trans hsub,
          hf.eq_setBody⟩
      | synthetic _ hext hs =>
        have htrue := isSubscopeRule_of_synthetic hext hs
        rw [← hf.keeps.isSubscopeRule, hsub] at htrue
        cases htrue

end

/-- An analysis of the sample on one thread. -/
def copyingInput : LoadedInput where
  freeze := .static_ ⟨.absolute 0x1000, ⟨"", "", ""⟩⟩ copyingSample
  libraryFunctions := []

theorem document_means_nestedSubscopes :
    ∃ set doc, @MatchingRuleSet.new .empty nestedSubscopes = .ok set ∧
      @BuildsResultDocument .empty ⟨"sample", [], none⟩ set copyingInput "freeze" "" 5
        ⟨.SERIAL, none, none⟩ (.ok doc) ∧
      (doc.rules.get? "a").elim [] (fun rm => rm.matches_.map (·.1)) = [.noAddress] ∧
      ∀ name rm, doc.rules.get? name = some rm → rm.matches_ ≠ [] ∧
        ∃ r ∈ nestedSubscopes, r.name = name ∧ r.isSubscopeRule = false ∧
          rm.rule = r.setBody rm.rule.body := by
  have hmeans := fun set hset doc hbuilds => @document_means .empty .empty nestedSubscopes _ set
    hset rfl (by decide) (by unfold NamesUnshared; decide) ⟨"sample", [], none⟩ copyingInput
    "freeze" "" 5 ⟨.SERIAL, none, none⟩ _ _ copyingSample_noMatches rfl doc hbuilds
  have hbuilds := fun set caps doc hrun hdoc => (@builds_static .empty set ⟨"sample", [], none⟩
    copyingInput "freeze" "" 5 ⟨.SERIAL, none, none⟩ _ _ rfl doc).mpr
      ⟨.insertion, ⟨.insertion, .insertion⟩, caps, hrun, hdoc⟩
  exact ⟨_, _, rfl, hbuilds _ _ _ rfl rfl, rfl, (hmeans _ rfl _ (hbuilds _ _ _ rfl rfl)).2⟩

end Api

end CapaX
