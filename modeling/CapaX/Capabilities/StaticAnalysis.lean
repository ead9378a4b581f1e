import CapaX.Capabilities.Drivers
import CapaX.Parallel

/-
  The static driver (`static_analysis.rs`): the rules of each scope are matched bottom-up, on
  instructions, basic blocks, functions and the file. A match on an instruction or a block is
  published in the features handed to the unit around it; a function publishes nothing, and the
  file gets the matches of all lower units in one go.

  `findStaticCapabilities_deterministic`: the order in which the maps of matches are walked
  changes nothing that is returned.
-/

namespace CapaX

open Collections Control

/-! ## The orders of a run -/

/-- The orders in which the walks inside a basic block go, by instruction where there is one walk
    for each. -/
structure BasicBlockOrders where
  instruction : Address → IterOrder
  extend : Address → IterOrder
  promote : IterOrder

/-- The orders of the walks inside a function, by basic block. -/
structure FunctionOrders where
  basicBlock : Address → BasicBlockOrders
  extendBasicBlock : Address → IterOrder
  extendInstruction : Address → IterOrder

/-- The orders of all walks of a run. -/
structure StaticOrders where
  function : Address → FunctionOrders
  extendFunction : Address → IterOrder
  extendBasicBlock : Address → IterOrder
  extendInstruction : Address → IterOrder
  publishInstruction : IterOrder
  publishBasicBlock : IterOrder
  publishFunction : IterOrder
  collectInstruction : IterOrder
  collectBasicBlock : IterOrder
  collectFunction : IterOrder
  collectFile : IterOrder

/-- Every walk in insertion order. -/
def StaticOrders.insertion : StaticOrders where
  function _ := ⟨fun _ => ⟨fun _ => .insertion, fun _ => .insertion, .insertion⟩,
    fun _ => .insertion, fun _ => .insertion⟩
  extendFunction _ := .insertion
  extendBasicBlock _ := .insertion
  extendInstruction _ := .insertion
  publishInstruction := .insertion
  publishBasicBlock := .insertion
  publishFunction := .insertion
  collectInstruction := .insertion
  collectBasicBlock := .insertion
  collectFunction := .insertion
  collectFile := .insertion

/-! ## The driver -/

/-- An engine error with the scope it came from. -/
inductive CapabilityError where
  | function (address : Address) (source : EngineError)
  | file (source : EngineError)
  deriving DecidableEq, Repr

/-- What matching a function returns. -/
structure CodeCapabilities where
  functionMatches : MatchResults
  basicBlockMatches : MatchResults
  instructionMatches : MatchResults
  featureCount : Nat

structure StaticCapabilities where
  results : MatchResults
  fileFeatureCount : Nat
  /-- one entry for each function, in address order -/
  functionFeatureCounts : List (Address × Nat)

section

variable [RegexBackend] (set : MatchingRuleSet)

def findInstructionCapabilities (order : IterOrder) (addr : Address) (insn : InstructionFeatures)
    (globals : List Feature) : Except EngineError (FeatureSet × MatchResults) := do
  let features := seed ∅ insn.features globals
  let results ← set.matchScopeResults .instruction features addr
  return (promoteMatches set order features results, results)

/-- One turn of the loop over the instructions of a block. -/
def visitInstruction (orders : BasicBlockOrders) (globals : List Feature)
    (acc : FeatureSet × MatchResults) (e : Address × InstructionFeatures) :
    Except EngineError (FeatureSet × MatchResults) := do
  let (insnFeatures, results) ←
    findInstructionCapabilities set (orders.instruction e.1) e.1 e.2 globals
  return (acc.1.mergeOwned insnFeatures, extendMatches (orders.extend e.1) acc.2 results)

/-- The features of a block with its matches, the matches, and those of its instructions. -/
def findBasicBlockCapabilities (orders : BasicBlockOrders) (addr : Address)
    (bb : BasicBlockFeatures) (globals : List Feature) :
    Except EngineError (FeatureSet × MatchResults × MatchResults) := do
  let (features, insnMatches) ←
    bb.instructions.entries.foldlM (visitInstruction set orders globals) (∅, ∅)
  let features := seed features bb.features globals
  let bbMatches ← set.matchScopeResults .basicBlock features addr
  return (promoteMatches set orders.promote features bbMatches, bbMatches, insnMatches)

/-- One turn of the loop over the blocks of a function. -/
def visitBasicBlock (orders : FunctionOrders) (globals : List Feature)
    (acc : FeatureSet × MatchResults × MatchResults) (e : Address × BasicBlockFeatures) :
    Except EngineError (FeatureSet × MatchResults × MatchResults) := do
  let (bbFeatures, bbMatches, insnMatches) ←
    findBasicBlockCapabilities set (orders.basicBlock e.1) e.1 e.2 globals
  return (acc.1.mergeOwned bbFeatures,
    extendMatches (orders.extendBasicBlock e.1) acc.2.1 bbMatches,
    extendMatches (orders.extendInstruction e.1) acc.2.2 insnMatches)

/-- Function matches are not published in the features of the function. -/
def findCodeCapabilities (orders : FunctionOrders) (addr : Address) (func : FunctionFeatures)
    (globals : List Feature) : Except EngineError CodeCapabilities := do
  let (features, bbMatches, insnMatches) ←
    func.basicBlocks.entries.foldlM (visitBasicBlock set orders globals) (∅, ∅, ∅)
  let features := seed features func.features globals
  let featureCount := features.len
  let functionMatches ← set.matchScopeResults .function features addr
  return ⟨functionMatches, bbMatches, insnMatches, featureCount⟩

/-- The matches of all functions, their blocks and their instructions. -/
structure CodeMatches where
  function : MatchResults
  basicBlock : MatchResults
  instruction : MatchResults

/-- One turn of the loop that joins the functions. -/
def joinFunction (orders : StaticOrders) (acc : CodeMatches) (e : Address × CodeCapabilities) :
    CodeMatches :=
  ⟨extendMatches (orders.extendFunction e.1) acc.function e.2.functionMatches,
    extendMatches (orders.extendBasicBlock e.1) acc.basicBlock e.2.basicBlockMatches,
    extendMatches (orders.extendInstruction e.1) acc.instruction e.2.instructionMatches⟩

/-- `function_and_lower_features` -/
def functionAndLowerFeatures (orders : StaticOrders) (all : CodeMatches) : FeatureSet :=
  publishMatches set ((orders.publishInstruction.reorder all.instruction).entries ++
    (orders.publishBasicBlock.reorder all.basicBlock).entries ++
    (orders.publishFunction.reorder all.function).entries)

/-- The functions go through `parallel::try_map`, which returns what the serial loop returns,
    whatever the number of jobs (`tryMap_iff`). -/
def findStaticCapabilities (freeze : StaticFeatures) (orders : StaticOrders) :
    Except CapabilityError StaticCapabilities := do
  let functions := freeze.functions.entries
  let perFunction ← serialMap functions fun e =>
    (findCodeCapabilities set (orders.function e.1) e.1 e.2 freeze.globalFeatures).mapError
      (.function e.1)
  let joined := (functions.map (·.1)).zip perFunction
  let all := joined.foldl (joinFunction orders) ⟨∅, ∅, ∅⟩
  let (fileMatches, fileFeatureCount) ←
    (findFileCapabilities set freeze.fileFeatures freeze.globalFeatures
      (functionAndLowerFeatures set orders all)).mapError .file
  let results := extendMatches orders.collectInstruction ∅ all.instruction
  let results := extendMatches orders.collectBasicBlock results all.basicBlock
  let results := extendMatches orders.collectFunction results all.function
  let results := extendMatches orders.collectFile results fileMatches
  return ⟨results, fileFeatureCount, joined.map fun e => (e.1, e.2.featureCount)⟩

variable {set} in
/-- What a run that returns went through: every function, then the file. -/
theorem findStaticCapabilities_ok {freeze : StaticFeatures} {orders : StaticOrders}
    {caps : StaticCapabilities} (h : findStaticCapabilities set freeze orders = .ok caps) :
    ∃ cs fileMatches,
      List.Forall₂ (fun e c => findCodeCapabilities set (orders.function e.1) e.1 e.2
        freeze.globalFeatures = .ok c) freeze.functions.entries cs ∧
      let all := ((freeze.functions.entries.map (·.1)).zip cs).foldl (joinFunction orders) ⟨∅, ∅, ∅⟩
      set.matchScopeResults .file ((seedFile freeze.fileFeatures freeze.globalFeatures).merge
        (functionAndLowerFeatures set orders all)) .noAddress = .ok fileMatches ∧
      caps.results = extendMatches orders.collectFile (extendMatches orders.collectFunction
        (extendMatches orders.collectBasicBlock (extendMatches orders.collectInstruction ∅
          all.instruction) all.basicBlock) all.function) fileMatches := by
  obtain ⟨cs, hcs, h⟩ := bind_eq_ok.mp h
  obtain ⟨⟨fileMatches, fileFeatureCount⟩, hfile, h⟩ := bind_eq_ok.mp h
  obtain rfl := Except.ok.inj h
  obtain ⟨results, hmatch, hpair⟩ := bind_eq_ok.mp (mapError_eq_ok.mp hfile)
  obtain ⟨rfl, _⟩ := Prod.mk.inj (Except.ok.inj hpair)
  have hall := (forall₂_of_serialMap hcs).imp fun e c hc => mapError_eq_ok.mp hc
  exact ⟨cs, results, hall, hmatch, rfl⟩

end

/-! ## The order of the walks -/

section

variable [ComDatabase] [RegexBackend] {rules : List Rule} {set : MatchingRuleSet}

omit [ComDatabase] in
theorem findInstructionCapabilities_related (order order' : IterOrder) (addr : Address)
    (insn : InstructionFeatures) (globals : List Feature) :
    Related (fun out out' => out.1.Alike out'.1 ∧ out.2 = out'.2)
      (findInstructionCapabilities set order addr insn globals)
      (findInstructionCapabilities set order' addr insn globals) := by
  refine Related.bind (.of_eq rfl) fun results results' hr => ?_
  subst hr
  exact .ok ⟨promoteMatches_alike (.refl _) fun _ => rfl, rfl⟩

theorem findBasicBlockCapabilities_related (hset : MatchingRuleSet.new rules = .ok set)
    (orders orders' : BasicBlockOrders) (addr : Address) (bb : BasicBlockFeatures)
    (globals : List Feature) :
    Related (fun out out' => out.1.Alike out'.1 ∧ out.2.1 = out'.2.1 ∧ out.2.2.Same out'.2.2)
      (findBasicBlockCapabilities set orders addr bb globals)
      (findBasicBlockCapabilities set orders' addr bb globals) := by
  have hloop : Related (fun acc acc' => acc.1.Alike acc'.1 ∧ acc.2.Same acc'.2)
      (bb.instructions.entries.foldlM (visitInstruction set orders globals) (∅, ∅))
      (bb.instructions.entries.foldlM (visitInstruction set orders' globals) (∅, ∅)) := by
    refine Related.foldlM ⟨.refl _, fun _ => rfl⟩ fun e _ acc acc' ⟨hfs, hm⟩ => ?_
    refine Related.bind (findInstructionCapabilities_related (orders.instruction e.1)
      (orders'.instruction e.1) e.1 e.2 globals) fun out out' ⟨hout, hres⟩ => ?_
    exact .ok ⟨hfs.mergeOwned hout, hm.extend fun name => by rw [hres]⟩
  refine Related.bind hloop fun acc acc' ⟨hfs, hm⟩ => ?_
  have hseed := seed_alike hfs bb.features globals
  refine Related.bind (matchScope_alike hset hseed) fun results results' hr => ?_
  subst hr
  exact .ok ⟨promoteMatches_alike hseed fun _ => rfl, rfl, hm⟩

/-- The same matches of a function and of everything in it. -/
structure CodeCapabilities.Same (c c' : CodeCapabilities) : Prop where
  function : c.functionMatches.Same c'.functionMatches
  basicBlock : c.basicBlockMatches.Same c'.basicBlockMatches
  instruction : c.instructionMatches.Same c'.instructionMatches
  count : c.featureCount = c'.featureCount

theorem findCodeCapabilities_related (hset : MatchingRuleSet.new rules = .ok set)
    (orders orders' : FunctionOrders) (addr : Address) (func : FunctionFeatures)
    (globals : List Feature) :
    Related CodeCapabilities.Same (findCodeCapabilities set orders addr func globals)
      (findCodeCapabilities set orders' addr func globals) := by
  have hloop : Related
      (fun acc acc' => acc.1.Alike acc'.1 ∧ acc.2.1.Same acc'.2.1 ∧ acc.2.2.Same acc'.2.2)
      (func.basicBlocks.entries.foldlM (visitBasicBlock set orders globals) (∅, ∅, ∅))
      (func.basicBlocks.entries.foldlM (visitBasicBlock set orders' globals) (∅, ∅, ∅)) := by
    refine Related.foldlM ⟨.refl _, fun _ => rfl, fun _ => rfl⟩
      fun e _ acc acc' ⟨hfs, hbb, hinsn⟩ => ?_
    refine Related.bind (findBasicBlockCapabilities_related hset (orders.basicBlock e.1)
      (orders'.basicBlock e.1) e.1 e.2 globals) fun out out' ⟨hout, hbb', hinsn'⟩ => ?_
    exact .ok ⟨hfs.mergeOwned hout, hbb.extend fun name => by rw [hbb'], hinsn.extend hinsn'⟩
  refine Related.bind hloop fun acc acc' ⟨hfs, hbb, hinsn⟩ => ?_
  have hseed := seed_alike hfs func.features globals
  refine Related.bind (matchScope_alike hset hseed) fun results results' hr => ?_
  subst hr
  exact .ok ⟨fun _ => rfl, hbb, hinsn, hseed.len_eq⟩

/-- The same matches at every level. -/
structure CodeMatches.Same (m m' : CodeMatches) : Prop where
  function : m.function.Same m'.function
  basicBlock : m.basicBlock.Same m'.basicBlock
  instruction : m.instruction.Same m'.instruction

omit [ComDatabase] [RegexBackend] in
theorem joinFunction_same {orders orders' : StaticOrders} {addrs : List Address}
    {cs cs' : List CodeCapabilities} (h : List.Forall₂ CodeCapabilities.Same cs cs')
    {acc acc' : CodeMatches} (ha : acc.Same acc') :
    ((addrs.zip cs).foldl (joinFunction orders) acc).Same
      ((addrs.zip cs').foldl (joinFunction orders') acc') := by
  induction h generalizing addrs acc acc' with
  | nil =>
    rw [List.zip_nil_right]
    exact ha
  | cons hc _ ih =>
    cases addrs with
    | nil => exact ha
    | cons addr addrs =>
      exact ih ⟨ha.function.extend hc.function, ha.basicBlock.extend hc.basicBlock,
        ha.instruction.extend hc.instruction⟩

omit [ComDatabase] [RegexBackend] in
theorem featureCounts_eq {addrs : List Address} {cs cs' : List CodeCapabilities}
    (h : List.Forall₂ CodeCapabilities.Same cs cs') :
    (addrs.zip cs).map (fun e => (e.1, e.2.featureCount)) =
      (addrs.zip cs').map fun e => (e.1, e.2.featureCount) := by
  induction h generalizing addrs with
  | nil => rfl
  | cons hc _ ih =>
    cases addrs with
    | nil => rfl
    | cons addr addrs =>
      rw [List.zip_cons_cons, List.zip_cons_cons, List.map_cons, List.map_cons, ih, hc.count]

omit [ComDatabase] [RegexBackend] in
theorem functionAndLowerFeatures_alike {orders orders' : StaticOrders} {all all' : CodeMatches}
    (h : all.Same all') : (functionAndLowerFeatures set orders all).Alike
      (functionAndLowerFeatures set orders' all') := by
  refine publishMatches_alike fun e => ?_
  simp only [List.mem_append, IterOrder.mem_reorder, h.function e.1, h.basicBlock e.1,
    h.instruction e.1]

theorem findFileCapabilities_related (hset : MatchingRuleSet.new rules = .ok set)
    {lower lower' : FeatureSet} (h : lower.Alike lower') (fileFeatures : List Located)
    (globals : List Feature) :
    Related (· = ·) (findFileCapabilities set fileFeatures globals lower)
      (findFileCapabilities set fileFeatures globals lower') := by
  have hfs : ((seedFile fileFeatures globals).merge lower).Alike
      ((seedFile fileFeatures globals).merge lower') := by
    rw [FeatureSet.merge_eq_mergeOwned, FeatureSet.merge_eq_mergeOwned]
    exact FeatureSet.Alike.mergeOwned (.refl _) h
  refine Related.bind (matchScope_alike hset hfs) fun results results' hr => ?_
  subst hr
  exact .ok (by rw [hfs.len_eq])

/-- The same matches of every rule, with the same evidence, and the same counts. -/
structure StaticCapabilities.Same (c c' : StaticCapabilities) : Prop where
  results : ∀ name, c.results.get? name = c'.results.get? name
  fileFeatureCount : c.fileFeatureCount = c'.fileFeatureCount
  functionFeatureCounts : c.functionFeatureCounts = c'.functionFeatureCounts

/-- Whatever orders the maps of matches are walked in, the driver fails with the same error, or
    records the same matches and counts. -/
theorem findStaticCapabilities_deterministic (hset : MatchingRuleSet.new rules = .ok set)
    (freeze : StaticFeatures) (orders orders' : StaticOrders) :
    Related StaticCapabilities.Same (findStaticCapabilities set freeze orders)
      (findStaticCapabilities set freeze orders') := by
  have hcode : Related (List.Forall₂ CodeCapabilities.Same)
      (serialMap freeze.functions.entries fun e => (findCodeCapabilities set
        (orders.function e.1) e.1 e.2 freeze.globalFeatures).mapError (CapabilityError.function e.1))
      (serialMap freeze.functions.entries fun e => (findCodeCapabilities set
        (orders'.function e.1) e.1 e.2 freeze.globalFeatures).mapError
          (CapabilityError.function e.1)) :=
    Related.mapM fun e _ => (findCodeCapabilities_related hset (orders.function e.1)
      (orders'.function e.1) e.1 e.2 freeze.globalFeatures).mapError
  refine Related.bind hcode fun cs cs' hcs => ?_
  have hall : CodeMatches.Same
      (((freeze.functions.entries.map (·.1)).zip cs).foldl (joinFunction orders) ⟨∅, ∅, ∅⟩)
      (((freeze.functions.entries.map (·.1)).zip cs').foldl (joinFunction orders') ⟨∅, ∅, ∅⟩) :=
    joinFunction_same hcs ⟨fun _ => rfl, fun _ => rfl, fun _ => rfl⟩
  have hlower : (functionAndLowerFeatures set orders _).Alike
      (functionAndLowerFeatures set orders' _) := functionAndLowerFeatures_alike hall
  have hfile := (findFileCapabilities_related hset hlower freeze.fileFeatures
    freeze.globalFeatures).mapError (f := CapabilityError.file)
  refine Related.bind hfile fun out out' ho => ?_
  subst ho
  refine .ok ⟨?_, rfl, featureCounts_eq hcs⟩
  have hnil : MatchResults.Same ∅ ∅ := fun _ => rfl
  exact ((((hnil.extend hall.instruction).extend hall.basicBlock).extend hall.function).extend
    fun _ => rfl)

end

/-- A function of one block, whose one instruction calls `CreateFile`. -/
def callingSample : StaticFeatures where
  globalFeatures := [.os "windows"]
  fileFeatures := []
  functions := .ofList [(.absolute 0x1000,
    { features := []
      basicBlocks := .ofList [(.absolute 0x1000,
        { features := [(.absolute 0x1000, .basicBlock)]
          instructions := .ofList [(.absolute 0x1004,
            ⟨[(.absolute 0x1004, .api "CreateFile")]⟩)] })] })]

theorem findStaticCapabilities_deterministic_openAndCreate :
    ∃ set, @MatchingRuleSet.new .empty openAndCreate = .ok set ∧ ∀ orders orders',
      Related StaticCapabilities.Same (@findStaticCapabilities .empty set callingSample orders)
        (@findStaticCapabilities .empty set callingSample orders') := by
  refine ⟨_, rfl, fun orders orders' => ?_⟩
  exact @findStaticCapabilities_deterministic .empty .empty openAndCreate _ rfl callingSample
    orders orders'

end CapaX
