import CapaX.Freeze
import CapaX.Wire.Frozen

/-
  Whole freeze documents (`freeze.rs`, `loads`): the envelope, the tree of units of a static or a
  dynamic sample, and what the reader makes of them. A level of units is collected into a map, so
  that the order a document lists them in is lost and the last unit of an address stays.

  The document is the JSON value the library parses the text to. What the library says about a
  value that has not the expected shape is its own text and is left out (`json`).
-/

namespace CapaX

open Json Collections

inductive LoadError where
  | json
  | unsupportedVersion (version : UInt32)
  | unsupportedFlavor (flavor : String)
  | freeze (error : FreezeError)
  deriving DecidableEq, Repr

/-- `CURRENT_VERSION` -/
def currentVersion : UInt32 := 3

structure SampleHashes where
  md5 : String
  sha1 : String
  sha256 : String
  deriving DecidableEq, Repr

/-- What both flavors of a freeze have. -/
structure Sample where
  baseAddress : Address
  sampleHashes : SampleHashes
  deriving DecidableEq, Repr

/-! ## Dynamic trees

The calls and the processes of a document carry names, which matching does not read. -/

structure NamedCall where
  name : String
  features : List Located

structure NamedThread where
  features : List Located
  calls : OrdMap Address NamedCall

structure NamedProcess where
  name : String
  features : List Located
  threads : OrdMap Address NamedThread

structure NamedDynamic where
  globalFeatures : List Feature
  fileFeatures : List Located
  processes : OrdMap Address NamedProcess

def NamedThread.unnamed (t : NamedThread) : ThreadFeatures :=
  ⟨t.features, t.calls.mapValues fun c => ⟨c.features⟩⟩

def NamedProcess.unnamed (p : NamedProcess) : ProcessFeatures :=
  ⟨p.features, p.threads.mapValues NamedThread.unnamed⟩

/-- What matching reads of a dynamic tree. -/
def NamedDynamic.unnamed (d : NamedDynamic) : DynamicFeatures :=
  ⟨d.globalFeatures, d.fileFeatures, d.processes.mapValues NamedProcess.unnamed⟩

inductive Freeze where
  | static_ (sample : Sample) (features : StaticFeatures)
  | dynamic (sample : Sample) (features : NamedDynamic)

/-! ## Wire types -/

def readString (entries : List (String × Value)) (key : String) : Option String := do
  (← get entries key).asStr

/-- A sequence of what `read` reads. -/
def readItems {α : Type} (read : Value → Option α) (entries : List (String × Value))
    (key : String) : Option (List α) := do
  (← (← get entries key).asArray).mapM read

def SampleHashes.ofJson (v : Value) : Option SampleHashes := do
  let entries ← entriesOf ["md5", "sha1", "sha256"] v
  let md5 ← readString entries "md5"
  let sha1 ← readString entries "sha1"
  let sha256 ← readString entries "sha256"
  return ⟨md5, sha1, sha256⟩

/-- `RawFreeze` -/
structure RawFreeze where
  version : UInt32
  baseAddress : RawAddress
  sampleHashes : SampleHashes
  flavor : String
  features : Value

def RawFreeze.ofJson (v : Value) : Option RawFreeze := do
  let entries ← entriesOf ["version", "base_address", "sample_hashes", "flavor", "features"] v
  let version ← toU32? (← (← get entries "version").asU64)
  let baseAddress ← RawAddress.ofJson (← get entries "base_address")
  let sampleHashes ← SampleHashes.ofJson (← get entries "sample_hashes")
  let flavor ← readString entries "flavor"
  let features ← get entries "features"
  return ⟨version, baseAddress, sampleHashes, flavor, features⟩

structure RawGlobalFeature where
  feature : RawFeature

def RawGlobalFeature.ofJson (v : Value) : Option RawGlobalFeature := do
  let entries ← entriesOf ["feature"] v
  let feature ← RawFeature.ofJson (← get entries "feature")
  return ⟨feature⟩

/-- `RawFileFeature`, `RawFunctionFeature`, `RawBasicBlockFeature`, `RawInstructionFeature`,
    `RawProcessFeature`, `RawThreadFeature` and `RawCallFeature` -/
structure RawLocated where
  address : RawAddress
  feature : RawFeature

def RawLocated.ofJson (v : Value) : Option RawLocated := do
  let entries ← entriesOf ["address", "feature"] v
  let address ← RawAddress.ofJson (← get entries "address")
  let feature ← RawFeature.ofJson (← get entries "feature")
  return ⟨address, feature⟩

structure RawInstructionFeatures where
  address : RawAddress
  features : List RawLocated

def RawInstructionFeatures.ofJson (v : Value) : Option RawInstructionFeatures := do
  let entries ← entriesOf ["address", "features"] v
  let address ← RawAddress.ofJson (← get entries "address")
  let features ← readItems RawLocated.ofJson entries "features"
  return ⟨address, features⟩

structure RawBasicBlockFeatures where
  address : RawAddress
  features : List RawLocated
  instructions : List RawInstructionFeatures

def RawBasicBlockFeatures.ofJson (v : Value) : Option RawBasicBlockFeatures := do
  let entries ← entriesOf ["address", "features", "instructions"] v
  let address ← RawAddress.ofJson (← get entries "address")
  let features ← readItems RawLocated.ofJson entries "features"
  let instructions ← readItems RawInstructionFeatures.ofJson entries "instructions"
  return ⟨address, features, instructions⟩

structure RawFunctionFeatures where
  address : RawAddress
  features : List RawLocated
  basicBlocks : List RawBasicBlockFeatures

def RawFunctionFeatures.ofJson (v : Value) : Option RawFunctionFeatures := do
  let entries ← entriesOf ["address", "features", "basic_blocks"] v
  let address ← RawAddress.ofJson (← get entries "address")
  let features ← readItems RawLocated.ofJson entries "features"
  let basicBlocks ← readItems RawBasicBlockFeatures.ofJson entries "basic_blocks"
  return ⟨address, features, basicBlocks⟩

structure RawStaticFeatures where
  global_ : List RawGlobalFeature
  file : List RawLocated
  functions : List RawFunctionFeatures

def RawStaticFeatures.ofJson (v : Value) : Option RawStaticFeatures := do
  let entries ← entriesOf ["global_", "file", "functions"] v
  let global_ ← readItems RawGlobalFeature.ofJson entries "global_"
  let file ← readItems RawLocated.ofJson entries "file"
  let functions ← readItems RawFunctionFeatures.ofJson entries "functions"
  return ⟨global_, file, functions⟩

structure RawCallFeatures where
  address : RawAddress
  name : String
  features : List RawLocated

def RawCallFeatures.ofJson (v : Value) : Option RawCallFeatures := do
  let entries ← entriesOf ["address", "name", "features"] v
  let address ← RawAddress.ofJson (← get entries "address")
  let name ← readString entries "name"
  let features ← readItems RawLocated.ofJson entries "features"
  return ⟨address, name, features⟩

structure RawThreadFeatures where
  address : RawAddress
  features : List RawLocated
  calls : List RawCallFeatures

def RawThreadFeatures.ofJson (v : Value) : Option RawThreadFeatures := do
  let entries ← entriesOf ["address", "features", "calls"] v
  let address ← RawAddress.ofJson (← get entries "address")
  let features ← readItems RawLocated.ofJson entries "features"
  let calls ← readItems RawCallFeatures.ofJson entries "calls"
  return ⟨address, features, calls⟩

structure RawProcessFeatures where
  address : RawAddress
  name : String
  features : List RawLocated
  threads : List RawThreadFeatures

def RawProcessFeatures.ofJson (v : Value) : Option RawProcessFeatures := do
  let entries ← entriesOf ["address", "name", "features", "threads"] v
  let address ← RawAddress.ofJson (← get entries "address")
  let name ← readString entries "name"
  let features ← readItems RawLocated.ofJson entries "features"
  let threads ← readItems RawThreadFeatures.ofJson entries "threads"
  return ⟨address, name, features, threads⟩

structure RawDynamicFeatures where
  global_ : List RawGlobalFeature
  file : List RawLocated
  processes : List RawProcessFeatures

def RawDynamicFeatures.ofJson (v : Value) : Option RawDynamicFeatures := do
  let entries ← entriesOf ["global_", "file", "processes"] v
  let global_ ← readItems RawGlobalFeature.ofJson entries "global_"
  let file ← readItems RawLocated.ofJson entries "file"
  let processes ← readItems RawProcessFeatures.ofJson entries "processes"
  return ⟨global_, file, processes⟩

/-! ## Conversion -/

section

variable [DebugJson] [RegexBackend]

def RawLocated.toCapa (f : RawLocated) : Except FreezeError Located := do
  let address ← f.address.toCapa
  let feature ← f.feature.toCapa
  return (address, feature)

/-- A unit, keyed by its address: the address is read before what the unit holds. -/
def keyedBy {α : Type} (address : RawAddress) (toCapa : Except FreezeError α) :
    Except FreezeError (Address × α) := do
  let address ← address.toCapa
  let features ← toCapa
  return (address, features)

/-- A level of units, collected into a map. -/
def collectUnits {ρ α : Type} (keyed : ρ → Except FreezeError (Address × α)) (units : List ρ) :
    Except FreezeError (OrdMap Address α) :=
  OrdMap.ofList <$> units.mapM keyed

def RawInstructionFeatures.toCapa (i : RawInstructionFeatures) :
    Except FreezeError InstructionFeatures := do
  let features ← i.features.mapM RawLocated.toCapa
  return ⟨features⟩

def RawInstructionFeatures.keyed (i : RawInstructionFeatures) :
    Except FreezeError (Address × InstructionFeatures) :=
  keyedBy i.address i.toCapa

def RawBasicBlockFeatures.toCapa (b : RawBasicBlockFeatures) :
    Except FreezeError BasicBlockFeatures := do
  let features ← b.features.mapM RawLocated.toCapa
  let instructions ← collectUnits RawInstructionFeatures.keyed b.instructions
  return ⟨features, instructions⟩

def RawBasicBlockFeatures.keyed (b : RawBasicBlockFeatures) :
    Except FreezeError (Address × BasicBlockFeatures) :=
  keyedBy b.address b.toCapa

def RawFunctionFeatures.toCapa (f : RawFunctionFeatures) :
    Except FreezeError FunctionFeatures := do
  let features ← f.features.mapM RawLocated.toCapa
  let basicBlocks ← collectUnits RawBasicBlockFeatures.keyed f.basicBlocks
  return ⟨features, basicBlocks⟩

def RawFunctionFeatures.keyed (f : RawFunctionFeatures) :
    Except FreezeError (Address × FunctionFeatures) :=
  keyedBy f.address f.toCapa

/-- The `static` arm of `loads`. -/
def RawStaticFeatures.toCapa (s : RawStaticFeatures) : Except FreezeError StaticFeatures := do
  let globalFeatures ← s.global_.mapM fun g => g.feature.toCapa
  let fileFeatures ← s.file.mapM RawLocated.toCapa
  let functions ← collectUnits RawFunctionFeatures.keyed s.functions
  return ⟨globalFeatures, fileFeatures, functions⟩

def RawCallFeatures.toCapa (c : RawCallFeatures) : Except FreezeError NamedCall := do
  let features ← c.features.mapM RawLocated.toCapa
  return ⟨c.name, features⟩

def RawCallFeatures.keyed (c : RawCallFeatures) : Except FreezeError (Address × NamedCall) :=
  keyedBy c.address c.toCapa

def RawThreadFeatures.toCapa (t : RawThreadFeatures) : Except FreezeError NamedThread := do
  let features ← t.features.mapM RawLocated.toCapa
  let calls ← collectUnits RawCallFeatures.keyed t.calls
  return ⟨features, calls⟩

def RawThreadFeatures.keyed (t : RawThreadFeatures) :
    Except FreezeError (Address × NamedThread) :=
  keyedBy t.address t.toCapa

def RawProcessFeatures.toCapa (p : RawProcessFeatures) : Except FreezeError NamedProcess := do
  let features ← p.features.mapM RawLocated.toCapa
  let threads ← collectUnits RawThreadFeatures.keyed p.threads
  return ⟨p.name, features, threads⟩

def RawProcessFeatures.keyed (p : RawProcessFeatures) :
    Except FreezeError (Address × NamedProcess) :=
  keyedBy p.address p.toCapa

/-- The `dynamic` arm of `loads`. -/
def RawDynamicFeatures.toCapa (d : RawDynamicFeatures) : Except FreezeError NamedDynamic := do
  let globalFeatures ← d.global_.mapM fun g => g.feature.toCapa
  let fileFeatures ← d.file.mapM RawLocated.toCapa
  let processes ← collectUnits RawProcessFeatures.keyed d.processes
  return ⟨globalFeatures, fileFeatures, processes⟩

def orJson {α : Type} (o : Option α) : Except LoadError α :=
  match o with
  | some a => .ok a
  | none => .error .json

/-- `loads`, from the parsed document on. -/
def loads (document : Value) : Except LoadError Freeze := do
  let envelope ← orJson (RawFreeze.ofJson document)
  if envelope.version ≠ currentVersion then .error (.unsupportedVersion envelope.version)
  else do
    let baseAddress ← envelope.baseAddress.toCapa.mapError .freeze
    match envelope.flavor with
    | "static" => do
      let raw ← orJson (RawStaticFeatures.ofJson envelope.features)
      let features ← raw.toCapa.mapError .freeze
      return .static_ ⟨baseAddress, envelope.sampleHashes⟩ features
    | "dynamic" => do
      let raw ← orJson (RawDynamicFeatures.ofJson envelope.features)
      let features ← raw.toCapa.mapError .freeze
      return .dynamic ⟨baseAddress, envelope.sampleHashes⟩ features
    | other => .error (.unsupportedFlavor other)

end

end CapaX
