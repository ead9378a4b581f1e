import CapaX.Capabilities.Recording
import CapaX.Capabilities.ScopeOrder
import CapaX.Capabilities.StaticAnalysis

/-
  What the static driver records. The instructions, blocks and functions of a sample and the file
  form a `Hierarchy` (`codeHierarchy`), and the driver records a given rule at exactly the units
  where it matches by its own body, subscopes in place (`findStaticCapabilities_records`). A rule
  that declares itself a subscope rule and that no other rule needs is never looked at.
-/

namespace CapaX

open Collections Control

/-! ## The units of a sample -/

inductive CodeUnit where
  | instruction (addr : Address) (insn : InstructionFeatures)
  | basicBlock (addr : Address) (bb : BasicBlockFeatures)
  | function (addr : Address) (func : FunctionFeatures)
  | file

def BasicBlockFeatures.units (bb : BasicBlockFeatures) : List CodeUnit :=
  bb.instructions.entries.map fun e => .instruction e.1 e.2

def FunctionFeatures.blockUnits (func : FunctionFeatures) : List CodeUnit :=
  func.basicBlocks.entries.map fun e => .basicBlock e.1 e.2

def FunctionFeatures.instructionUnits (func : FunctionFeatures) : List CodeUnit :=
  func.basicBlocks.entries.flatMap fun e => e.2.units

/-- The units of a list of functions, by kind. -/
def functionUnits (functions : List (Address × FunctionFeatures)) : List CodeUnit :=
  functions.map fun e => .function e.1 e.2

def basicBlockUnits (functions : List (Address × FunctionFeatures)) : List CodeUnit :=
  functions.flatMap fun e => e.2.blockUnits

def instructionUnits (functions : List (Address × FunctionFeatures)) : List CodeUnit :=
  functions.flatMap fun e => e.2.instructionUnits

namespace StaticFeatures

/-- The units below the file, instructions first. -/
def lowerUnits (freeze : StaticFeatures) : List CodeUnit :=
  instructionUnits freeze.functions.entries ++ basicBlockUnits freeze.functions.entries ++
    functionUnits freeze.functions.entries

def units (freeze : StaticFeatures) : List CodeUnit := freeze.lowerUnits ++ [.file]

end StaticFeatures

/-- The features of a unit and of everything in it, with the globals. -/
def instructionOwn (globals : List Feature) (insn : InstructionFeatures) : FeatureSet :=
  seed ∅ insn.features globals

def basicBlockOwn (globals : List Feature) (bb : BasicBlockFeatures) : FeatureSet :=
  seed (bb.instructions.entries.foldl
    (fun acc e => acc.mergeOwned (instructionOwn globals e.2)) (∅ : FeatureSet)) bb.features globals

def functionOwn (globals : List Feature) (func : FunctionFeatures) : FeatureSet :=
  seed (func.basicBlocks.entries.foldl
    (fun acc e => acc.mergeOwned (basicBlockOwn globals e.2)) (∅ : FeatureSet)) func.features globals

/-- The units of a sample, one inside the other. The file has its own features only. -/
def codeHierarchy (freeze : StaticFeatures) : Hierarchy CodeUnit where
  scope
    | .instruction _ _ => .instruction
    | .basicBlock _ _ => .basicBlock
    | .function _ _ => .function
    | .file => .file
  addr
    | .instruction addr _ | .basicBlock addr _ | .function addr _ => addr
    | .file => .noAddress
  inside
    | .instruction _ _ => []
    | .basicBlock _ bb => bb.units
    | .function _ func => func.instructionUnits ++ func.blockUnits
    | .file => freeze.lowerUnits
  features
    | .instruction _ insn => instructionOwn freeze.globalFeatures insn
    | .basicBlock _ bb => basicBlockOwn freeze.globalFeatures bb
    | .function _ func => functionOwn freeze.globalFeatures func
    | .file => seedFile freeze.fileFeatures freeze.globalFeatures

def NoMatch (features : List Located) : Prop := ∀ e ∈ features, ∀ v, e.2 ≠ .matchedRule v

/-- No feature of the sample is a match feature. -/
structure StaticFeatures.NoMatches (freeze : StaticFeatures) : Prop where
  globals : ∀ g ∈ freeze.globalFeatures, ∀ v, g ≠ .matchedRule v
  file : NoMatch freeze.fileFeatures
  function : ∀ e ∈ freeze.functions.entries, NoMatch e.2.features
  basicBlock : ∀ e ∈ freeze.functions.entries, ∀ b ∈ e.2.basicBlocks.entries, NoMatch b.2.features
  instruction : ∀ e ∈ freeze.functions.entries, ∀ b ∈ e.2.basicBlocks.entries,
    ∀ i ∈ b.2.instructions.entries, NoMatch i.2.features

section

variable [ComDatabase] [RegexBackend] {rules es : List Rule} {freeze : StaticFeatures}

/-! ## The driver, level by level -/

theorem findInstructionCapabilities_gathers (h : Expansion rules es) (hu : NamesUnshared es)
    (hglobals : ∀ g ∈ freeze.globalFeatures, ∀ v, g ≠ .matchedRule v) {order : IterOrder}
    {addr : Address} {insn : InstructionFeatures} (hown : NoMatch insn.features)
    {fs : FeatureSet} {results : MatchResults}
    (hrun : findInstructionCapabilities (MatchingRuleSet.ofExpanded es) order addr insn
      freeze.globalFeatures = .ok (fs, results)) :
    Gathers (codeHierarchy freeze) rules es fs (instructionOwn freeze.globalFeatures insn)
        [.instruction addr insn] ∧
      Collects (codeHierarchy freeze) rules es results [.instruction addr insn] := by
  obtain ⟨results', hmatch, hrun⟩ := bind_eq_ok.mp hrun
  obtain ⟨rfl, rfl⟩ := Prod.mk.inj (Except.ok.inj hrun)
  have hg : Gathers (codeHierarchy freeze) rules es (seed ∅ insn.features freeze.globalFeatures)
      (instructionOwn freeze.globalFeatures insn) [] := Gathers.empty.seed hown hglobals
  have hc : Collects (codeHierarchy freeze) rules es results' [.instruction addr insn] :=
    h.collects (H := codeHierarchy freeze) (u := .instruction addr insn) hu
      (by simp [codeHierarchy, allScopes]) hg hmatch
  exact ⟨hg.promoteMatches h hc, hc⟩

theorem findBasicBlockCapabilities_gathers (h : Expansion rules es) (hu : NamesUnshared es)
    (hglobals : ∀ g ∈ freeze.globalFeatures, ∀ v, g ≠ .matchedRule v) {orders : BasicBlockOrders}
    {addr : Address} {bb : BasicBlockFeatures} (hown : NoMatch bb.features)
    (hinsns : ∀ i ∈ bb.instructions.entries, NoMatch i.2.features)
    {fs : FeatureSet} {bbMatches insnMatches : MatchResults}
    (hrun : findBasicBlockCapabilities (MatchingRuleSet.ofExpanded es) orders addr bb
      freeze.globalFeatures = .ok (fs, bbMatches, insnMatches)) :
    Gathers (codeHierarchy freeze) rules es fs (basicBlockOwn freeze.globalFeatures bb)
        (bb.units ++ [.basicBlock addr bb]) ∧
      Collects (codeHierarchy freeze) rules es bbMatches [.basicBlock addr bb] ∧
      Collects (codeHierarchy freeze) rules es insnMatches bb.units := by
  obtain ⟨⟨features, insnMatches'⟩, hloop, hrun⟩ := bind_eq_ok.mp hrun
  obtain ⟨results, hmatch, hrun⟩ := bind_eq_ok.mp hrun
  obtain ⟨rfl, hpair⟩ := Prod.mk.inj (Except.ok.inj hrun)
  obtain ⟨rfl, rfl⟩ := Prod.mk.inj hpair
  obtain ⟨hg, hc⟩ := foldlM_visited (P := fun seen acc =>
    Gathers (codeHierarchy freeze) rules es acc.1
        (seen.foldl (fun acc e => acc.mergeOwned (instructionOwn freeze.globalFeatures e.2))
          (∅ : FeatureSet)) (seen.map fun e => CodeUnit.instruction e.1 e.2) ∧
      Collects (codeHierarchy freeze) rules es acc.2
        (seen.map fun e => CodeUnit.instruction e.1 e.2)) hloop ⟨.empty, .empty⟩
    (by
      intro seen e he acc acc' ⟨hg, hc⟩ hvisit
      obtain ⟨⟨insnFeatures, found⟩, hfind, hvisit⟩ := bind_eq_ok.mp hvisit
      obtain rfl := Except.ok.inj hvisit
      obtain ⟨hge, hce⟩ := findInstructionCapabilities_gathers h hu hglobals (hinsns e he) hfind
      rw [List.foldl_append, List.map_append]
      exact ⟨hg.mergeOwned hge, hc.extend hce⟩)
  have hg : Gathers (codeHierarchy freeze) rules es
      (seed features bb.features freeze.globalFeatures)
      (basicBlockOwn freeze.globalFeatures bb) bb.units := hg.seed hown hglobals
  have hcb : Collects (codeHierarchy freeze) rules es results [.basicBlock addr bb] :=
    h.collects (H := codeHierarchy freeze) (u := .basicBlock addr bb) hu
      (by simp [codeHierarchy, allScopes]) hg hmatch
  exact ⟨hg.promoteMatches h hcb, hcb, hc⟩

/-- The matches of a list of functions and of everything in them. -/
structure CodeMatches.Collects (freeze : StaticFeatures) (rules es : List Rule)
    (all : CodeMatches) (functions : List (Address × FunctionFeatures)) : Prop where
  function : CapaX.Collects (codeHierarchy freeze) rules es all.function (functionUnits functions)
  basicBlock : CapaX.Collects (codeHierarchy freeze) rules es all.basicBlock
    (basicBlockUnits functions)
  instruction : CapaX.Collects (codeHierarchy freeze) rules es all.instruction
    (instructionUnits functions)

/-- What the loop over the blocks of a function has gathered. -/
structure BlocksVisited (freeze : StaticFeatures) (rules es : List Rule)
    (seen : List (Address × BasicBlockFeatures)) (acc : FeatureSet × MatchResults × MatchResults) :
    Prop where
  gathers : Gathers (codeHierarchy freeze) rules es acc.1
    (seen.foldl (fun acc e => acc.mergeOwned (basicBlockOwn freeze.globalFeatures e.2))
      (∅ : FeatureSet))
    ((seen.flatMap fun e => e.2.units) ++ seen.map fun e => CodeUnit.basicBlock e.1 e.2)
  basicBlock : Collects (codeHierarchy freeze) rules es acc.2.1
    (seen.map fun e => CodeUnit.basicBlock e.1 e.2)
  instruction : Collects (codeHierarchy freeze) rules es acc.2.2 (seen.flatMap fun e => e.2.units)

theorem visitBasicBlock_visited (h : Expansion rules es) (hu : NamesUnshared es)
    (hglobals : ∀ g ∈ freeze.globalFeatures, ∀ v, g ≠ .matchedRule v) {orders : FunctionOrders}
    {seen : List (Address × BasicBlockFeatures)} {e : Address × BasicBlockFeatures}
    (hown : NoMatch e.2.features) (hinsns : ∀ i ∈ e.2.instructions.entries, NoMatch i.2.features)
    {acc acc' : FeatureSet × MatchResults × MatchResults}
    (hacc : BlocksVisited freeze rules es seen acc)
    (hvisit : visitBasicBlock (MatchingRuleSet.ofExpanded es) orders freeze.globalFeatures acc e =
      .ok acc') : BlocksVisited freeze rules es (seen ++ [e]) acc' := by
  obtain ⟨⟨bbFeatures, found, insns⟩, hfind, hvisit⟩ := bind_eq_ok.mp hvisit
  obtain rfl := Except.ok.inj hvisit
  obtain ⟨hg, hb, hi⟩ := findBasicBlockCapabilities_gathers h hu hglobals hown hinsns hfind
  refine ⟨?_, ?_, ?_⟩
  · rw [List.foldl_append, List.map_append, List.flatMap_append, List.flatMap_singleton]
    refine (hacc.gathers.mergeOwned hg).of_mem_iff fun u => ?_
    simp only [List.mem_append, List.map_cons, List.map_nil]
    tauto
  · rw [List.map_append]
    exact hacc.basicBlock.extend hb
  · rw [List.flatMap_append, List.flatMap_singleton]
    exact hacc.instruction.extend hi

theorem findCodeCapabilities_collects (h : Expansion rules es) (hu : NamesUnshared es)
    (hglobals : ∀ g ∈ freeze.globalFeatures, ∀ v, g ≠ .matchedRule v) {orders : FunctionOrders}
    {addr : Address} {func : FunctionFeatures} (hown : NoMatch func.features)
    (hblocks : ∀ b ∈ func.basicBlocks.entries, NoMatch b.2.features)
    (hinsns : ∀ b ∈ func.basicBlocks.entries, ∀ i ∈ b.2.instructions.entries, NoMatch i.2.features)
    {c : CodeCapabilities}
    (hrun : findCodeCapabilities (MatchingRuleSet.ofExpanded es) orders addr func
      freeze.globalFeatures = .ok c) :
    Collects (codeHierarchy freeze) rules es c.functionMatches [.function addr func] ∧
      Collects (codeHierarchy freeze) rules es c.basicBlockMatches func.blockUnits ∧
      Collects (codeHierarchy freeze) rules es c.instructionMatches func.instructionUnits := by
  obtain ⟨⟨features, bbMatches, insnMatches⟩, hloop, hrun⟩ := bind_eq_ok.mp hrun
  obtain ⟨results, hmatch, hrun⟩ := bind_eq_ok.mp hrun
  obtain rfl := Except.ok.inj hrun
  have hseen : BlocksVisited freeze rules es func.basicBlocks.entries
      (features, bbMatches, insnMatches) :=
    foldlM_visited (P := BlocksVisited freeze rules es) hloop ⟨.empty, .empty, .empty⟩
      fun seen e he acc acc' hacc hvisit =>
        visitBasicBlock_visited h hu hglobals (hblocks e he) (hinsns e he) hacc hvisit
  have hg : Gathers (codeHierarchy freeze) rules es
      (seed features func.features freeze.globalFeatures)
      (functionOwn freeze.globalFeatures func) (func.instructionUnits ++ func.blockUnits) :=
    hseen.gathers.seed hown hglobals
  have hc : Collects (codeHierarchy freeze) rules es results [.function addr func] :=
    h.collects (H := codeHierarchy freeze) (u := .function addr func) hu
      (by simp [codeHierarchy, allScopes]) hg hmatch
  exact ⟨hc, hseen.basicBlock, hseen.instruction⟩

omit [ComDatabase] in
/-- Joining functions collects their matches one function after the other. -/
theorem joinFunction_collects [ComDatabase] {orders : StaticOrders}
    {functions : List (Address × FunctionFeatures)} {cs : List CodeCapabilities}
    (hcs : List.Forall₂ (fun e c =>
      Collects (codeHierarchy freeze) rules es c.functionMatches [.function e.1 e.2] ∧
        Collects (codeHierarchy freeze) rules es c.basicBlockMatches e.2.blockUnits ∧
        Collects (codeHierarchy freeze) rules es c.instructionMatches e.2.instructionUnits)
      functions cs) {acc : CodeMatches} {seen : List (Address × FunctionFeatures)}
    (hacc : acc.Collects freeze rules es seen) :
    (((functions.map (·.1)).zip cs).foldl (joinFunction orders) acc).Collects freeze rules es
      (seen ++ functions) := by
  induction hcs generalizing acc seen with
  | nil =>
    rw [List.append_nil]
    exact hacc
  | @cons e c functions cs hc _ ih =>
    obtain ⟨hf, hb, hi⟩ := hc
    have hnext : (joinFunction orders acc (e.1, c)).Collects freeze rules es (seen ++ [e]) := by
      refine ⟨?_, ?_, ?_⟩
      · rw [functionUnits, List.map_append]
        exact hacc.function.extend hf
      · rw [basicBlockUnits, List.flatMap_append, List.flatMap_singleton]
        exact hacc.basicBlock.extend hb
      · rw [instructionUnits, List.flatMap_append, List.flatMap_singleton]
        exact hacc.instruction.extend hi
    have hrest := ih hnext
    rwa [List.append_assoc] at hrest

omit [ComDatabase] [RegexBackend] in
/-- The features of the file alone hold no match. -/
theorem not_has_seedFile (hfree : freeze.NoMatches) (v : String) :
    ¬ (seedFile freeze.fileFeatures freeze.globalFeatures).Has v := by
  rw [has_seedFile]
  rintro (⟨e, he, hev⟩ | hg)
  · exact hfree.file e he v hev
  · exact hfree.globals _ hg v rfl

omit [ComDatabase] [RegexBackend] in
/-- The entries published for the file are those of the three maps. -/
theorem mem_lowerEntries {orders : StaticOrders} {all : CodeMatches} {name : String}
    {res : List (Address × MatchResult)} :
    (name, res) ∈ (orders.publishInstruction.reorder all.instruction).entries ++
        (orders.publishBasicBlock.reorder all.basicBlock).entries ++
        (orders.publishFunction.reorder all.function).entries ↔
      all.instruction.get? name = some res ∨ all.basicBlock.get? name = some res ∨
        all.function.get? name = some res := by
  simp only [List.mem_append, IterOrder.mem_reorder, or_assoc]

omit [ComDatabase] [RegexBackend] in
theorem mem_locations_publishMatches {set : MatchingRuleSet}
    {entries : List (String × List (Address × MatchResult))} {v : String} {a : Address} :
    a ∈ (publishMatches set entries).locations (.matchedRule v) ↔
      ∃ name res rule, (name, res) ∈ entries ∧ set.get name = some rule ∧ v ∈ rule.published ∧
        ∃ r ∈ res, a = r.1 := by
  rw [publishMatches_eq, FeatureSet.mem_locations_publishAll,
    or_iff_right FeatureSet.not_mem_locations_empty]
  simp only [Feature.matchedRule.injEq, exists_eq_right']
  constructor
  · intro ⟨p, hp, hv, ha⟩
    obtain ⟨name, res, rule, he, hget, rfl⟩ := mem_publications.mp hp
    obtain ⟨r, hr, rfl⟩ := List.mem_map.mp (OrdSet.mem_ofList.mp ha)
    exact ⟨name, res, rule, he, hget, hv, r, hr, rfl⟩
  · intro ⟨name, res, rule, he, hget, hv, r, hr, ha⟩
    refine ⟨_, mem_publications.mpr ⟨name, res, rule, he, hget, rfl⟩, hv, ?_⟩
    exact OrdSet.mem_ofList.mpr (List.mem_map.mpr ⟨r, hr, ha.symm⟩)

/-- The file is handed the matches of all lower units. -/
theorem fileInput_gathers (h : Expansion rules es) (hfree : freeze.NoMatches)
    {orders : StaticOrders} {all : CodeMatches}
    (hall : all.Collects freeze rules es freeze.functions.entries) :
    Gathers (codeHierarchy freeze) rules es
      ((seedFile freeze.fileFeatures freeze.globalFeatures).merge
        (functionAndLowerFeatures (MatchingRuleSet.ofExpanded es) orders all))
      (seedFile freeze.fileFeatures freeze.globalFeatures) freeze.lowerUnits := by
  refine ⟨fun f hf => ?_, fun v hv a => ?_, fun v hv => ?_⟩
  · rw [FeatureSet.merge_eq_mergeOwned, FeatureSet.get?_mergeOwned, functionAndLowerFeatures,
      publishMatches_eq, FeatureSet.get?_publishAll_of_not fun _ _ v _ => hf v]
    rfl
  · have hnone : a ∉ (seedFile freeze.fileFeatures freeze.globalFeatures).locations
        (.matchedRule v) := by
      intro ha
      obtain ⟨locs, hget, _⟩ := FeatureSet.mem_locations_iff.mp ha
      refine not_has_seedFile hfree v ?_
      unfold FeatureSet.Has
      rw [hget]
      rfl
    rw [FeatureSet.mem_locations_merge, or_iff_right hnone, functionAndLowerFeatures,
      mem_locations_publishMatches]
    simp only [mem_lowerEntries, or_and_right, exists_or]
    rw [hall.instruction.matched_iff h hv, hall.basicBlock.matched_iff h hv,
      hall.function.matched_iff h hv, StaticFeatures.lowerUnits]
    simp only [List.mem_append, or_and_right, exists_or, or_assoc]
  · rw [FeatureSet.has_merge, or_iff_right (not_has_seedFile hfree v), functionAndLowerFeatures,
      has_publishMatches] at hv
    obtain ⟨name, res, rule, he, hget, hp⟩ := hv
    have hne : res ≠ [] := by
      rcases mem_lowerEntries.mp he with hres | hres | hres
      · exact (hall.instruction.listed name res hres).1
      · exact (hall.basicBlock.listed name res hres).1
      · exact (hall.function.listed name res hres).1
    obtain ⟨r, hr⟩ := List.exists_mem_of_ne_nil res hne
    refine ⟨r.1, FeatureSet.mem_locations_merge.mpr (Or.inr ?_)⟩
    exact mem_locations_publishMatches.mpr ⟨name, res, rule, he, hget, hp, r, hr, rfl⟩

/-! ## The driver -/

/-- The functions one after the other. -/
theorem functions_collect (h : Expansion rules es) (hu : NamesUnshared es)
    (hfree : freeze.NoMatches) {orders : StaticOrders} {cs : List CodeCapabilities}
    (hall : List.Forall₂ (fun e c => findCodeCapabilities (MatchingRuleSet.ofExpanded es)
      (orders.function e.1) e.1 e.2 freeze.globalFeatures = .ok c) freeze.functions.entries cs) :
    CodeMatches.Collects freeze rules es
      (((freeze.functions.entries.map (·.1)).zip cs).foldl (joinFunction orders) ⟨∅, ∅, ∅⟩)
      freeze.functions.entries := by
  have hempty : CodeMatches.Collects freeze rules es ⟨∅, ∅, ∅⟩ [] := ⟨.empty, .empty, .empty⟩
  refine joinFunction_collects ?_ hempty
  refine ((List.forall₂_and_left _ _).mpr ⟨fun e he => he, hall⟩).imp fun e c ⟨he, hc⟩ => ?_
  exact findCodeCapabilities_collects h hu hfree.globals (hfree.function e he)
    (hfree.basicBlock e he) (hfree.instruction e he) hc

/-- All matches of a run, those of the file last. -/
theorem findStaticCapabilities_collects (h : Expansion rules es) (hu : NamesUnshared es)
    (hfree : freeze.NoMatches) {orders : StaticOrders} {caps : StaticCapabilities}
    (hrun : findStaticCapabilities (MatchingRuleSet.ofExpanded es) freeze orders = .ok caps) :
    Collects (codeHierarchy freeze) rules es caps.results freeze.units := by
  obtain ⟨cs, results, hcs, hmatch, hresults⟩ := findStaticCapabilities_ok hrun
  have hall := functions_collect h hu hfree hcs
  have hf : Collects (codeHierarchy freeze) rules es results [.file] :=
    h.collects (H := codeHierarchy freeze) (u := .file) hu (by simp [codeHierarchy, allScopes])
      (fileInput_gathers h hfree hall) hmatch
  have hunits : freeze.units = [] ++ instructionUnits freeze.functions.entries ++
      basicBlockUnits freeze.functions.entries ++ functionUnits freeze.functions.entries ++
      [.file] := rfl
  rw [hunits, hresults]
  exact (((Collects.empty.extend hall.instruction).extend hall.basicBlock).extend
    hall.function).extend hf

/-- A run that returns records a given rule at the units where it matches: those of its scopes
    where its own body holds. With distinct expanded names, none of them a namespace, this is so of
    each rule that does not declare itself a subscope rule or that is needed anyway; no other rule
    is recorded at all. -/
theorem findStaticCapabilities_records {set : MatchingRuleSet}
    (hset : MatchingRuleSet.new rules = .ok set) (hes : expandAndExtract rules = .ok es)
    (hn : (es.map (·.name)).Nodup) (hu : NamesUnshared es) (hfree : freeze.NoMatches)
    {orders : StaticOrders} {caps : StaticCapabilities}
    (hrun : findStaticCapabilities set freeze orders = .ok caps) {r : Rule} (hr : r ∈ rules) :
    (r.isSubscopeRule = false ∨ Needed es r.name →
      ((caps.results.get? r.name).getD []).map (·.1) =
        (freeze.units.filter (r.matchesAt (codeHierarchy freeze) rules)).map
          (codeHierarchy freeze).addr) ∧
      (∀ u, r.matchesAt (codeHierarchy freeze) rules u =
        (r.scopes.contains ((codeHierarchy freeze).scope u) &&
          (codeHierarchy freeze).holds
            (Hierarchy.matchedBy rules (Rule.matchesAt (codeHierarchy freeze) rules)) r.body u)) ∧
      (¬ (r.isSubscopeRule = false ∨ Needed es r.name) → caps.results.get? r.name = none) := by
  obtain ⟨haccepts, es0, hes0, rfl⟩ := MatchingRuleSet.new_ok hset
  obtain rfl : es0 = es := Except.ok.inj (hes0.symm.trans hes)
  have h : Expansion rules es0 := ⟨haccepts, hes0, hn, fun e _ v _ a ha hname b hb =>
    hname ▸ hu a ha b hb⟩
  have hmeaning : ∀ u, r.matchesAt (codeHierarchy freeze) rules u =
      r.saysAt (codeHierarchy freeze) rules u :=
    Rule.matchesAt_eq haccepts (h.namesUnshared hu) hr
  have hcollects := findStaticCapabilities_collects h hu hfree hrun
  refine ⟨fun hlisted => ?_, hmeaning, fun hunlisted => ?_⟩
  · obtain ⟨e, he, hf⟩ := h.untangled.finished (.given hr)
    have hneeded : Needed es0 e.name := by
      rcases hlisted with hsub | hneeded
      · exact h.untangled.needed_of_origin hr hsub (.given (List.mem_singleton_self r)) hf
      · rwa [hf.keeps.name]
    have haddrs := hcollects.addrs e ⟨he, (mem_scopeRuleNames hn).mpr hneeded⟩
    rw [hf.keeps.name] at haddrs
    rw [haddrs]
    refine congrArg (List.map _) (List.filter_congr fun u _ => ?_)
    rw [h.sourceTruth_eq (.given hr) hf, hmeaning]
  · cases hget : caps.results.get? r.name with
    | none => rfl
    | some res =>
      obtain ⟨-, e, ⟨-, hlisted⟩, hname⟩ := hcollects.listed r.name res hget
      rw [hname] at hlisted
      exact absurd (Or.inr ((mem_scopeRuleNames hn).mp hlisted)) hunlisted

end

/-! ## A sample -/

/-- A function of one block, whose one instruction calls `CreateFile` and `ReadFile`. -/
def copyingSample : StaticFeatures where
  globalFeatures := [.os "windows"]
  fileFeatures := [(.absolute 0x1000, .string (.plain "config"))]
  functions := .ofList [(.absolute 0x1000,
    { features := []
      basicBlocks := .ofList [(.absolute 0x1000,
        { features := [(.absolute 0x1000, .basicBlock)]
          instructions := .ofList [(.absolute 0x1004,
            ⟨[(.absolute 0x1004, .api "CreateFile"), (.absolute 0x1004, .api "ReadFile")]⟩)] })] })]

theorem copyingSample_noMatches : copyingSample.NoMatches where
  globals := by simp [copyingSample]
  file := by simp [copyingSample, NoMatch]
  function e he := by
    obtain rfl := List.mem_singleton.mp he
    simp [NoMatch]
  basicBlock e he b hb := by
    obtain rfl := List.mem_singleton.mp he
    obtain rfl := List.mem_singleton.mp hb
    simp [NoMatch]
  instruction e he b hb i hi := by
    obtain rfl := List.mem_singleton.mp he
    obtain rfl := List.mem_singleton.mp hb
    obtain rfl := List.mem_singleton.mp hi
    simp [NoMatch]

/-- The function subscope of the rule and the block subscope in it are extracted, and the rule is
    recorded at the file. -/
theorem findStaticCapabilities_records_nestedSubscopes :
    ∃ set caps r, @MatchingRuleSet.new .empty nestedSubscopes = .ok set ∧
      @findStaticCapabilities .empty set copyingSample .insertion = .ok caps ∧
      r ∈ nestedSubscopes ∧ r.name = "a" ∧
      ((caps.results.get? r.name).getD []).map (·.1) = [.noAddress] ∧
      ((caps.results.get? r.name).getD []).map (·.1) =
        (copyingSample.units.filter (@Rule.matchesAt _ .empty .empty (codeHierarchy copyingSample)
          nestedSubscopes r)).map (codeHierarchy copyingSample).addr := by
  refine ⟨_, _, _, rfl, rfl, List.mem_cons_self, rfl, rfl, ?_⟩
  exact (@findStaticCapabilities_records .empty .empty nestedSubscopes _ copyingSample _ rfl rfl
    (by decide) (by unfold NamesUnshared; decide) copyingSample_noMatches .insertion _ rfl _
    List.mem_cons_self).1 (Or.inl rfl)

/-- A given rule that holds at a function and is not recorded: it declares itself a subscope rule,
    and no rule depends on it. -/
theorem unasked_unrecorded :
    ∃ set es caps, @MatchingRuleSet.new .empty [unasked] = .ok set ∧
      @expandAndExtract .empty [unasked] = .ok es ∧ (es.map (·.name)).Nodup ∧ NamesUnshared es ∧
      copyingSample.NoMatches ∧
      @findStaticCapabilities .empty set copyingSample .insertion = .ok caps ∧
      (∃ u ∈ copyingSample.units,
        @Rule.matchesAt _ .empty .empty (codeHierarchy copyingSample) [unasked] unasked u = true ∧
        @Hierarchy.holds _ (codeHierarchy copyingSample) .empty .empty (Hierarchy.matchedBy [unasked]
          (@Rule.matchesAt _ .empty .empty (codeHierarchy copyingSample) [unasked]))
          unasked.body u = true) ∧
      caps.results.get? unasked.name = none := by
  refine ⟨_, _, _, rfl, rfl, by decide, by unfold NamesUnshared; decide, copyingSample_noMatches,
    rfl, ?_, rfl⟩
  exact ⟨_, List.mem_append_left _ (List.mem_append_right _ List.mem_cons_self), rfl, rfl⟩

end CapaX
