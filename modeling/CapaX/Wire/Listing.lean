import CapaX.Codec.Carried
import CapaX.Wire.Document
import CapaX.Wire.RoundTrip

/-
  What a freeze document says: a `Listing` is a sample as a producer of documents lists it, with
  the units of a level in any order and a description or none at every feature. Written with the
  addresses and features of the result document, a listing of features the wire can hold loads as
  the tree it lists (`loads_write`).
-/

namespace CapaX

open Json Collections Codec

/-! ## Listings -/

def writeFeature (feature : Feature) (description : Option String) : Option Value :=
  match RdFeature.fromEngine feature description with
  | .ok rd => rd.toJson
  | .error _ => none

def writeAddress (a : Address) : Value := (RdAddress.from a).toJson

/-- A feature of the whole sample. -/
structure ListedGlobal where
  feature : Feature
  description : Option String

def ListedGlobal.write (g : ListedGlobal) : Option Value := do
  let feature ← writeFeature g.feature g.description
  return .object [("feature", feature)]

structure ListedFeature where
  address : Address
  feature : Feature
  description : Option String

def ListedFeature.located (f : ListedFeature) : Located := (f.address, f.feature)

def ListedFeature.write (f : ListedFeature) : Option Value := do
  let feature ← writeFeature f.feature f.description
  return .object [("address", writeAddress f.address), ("feature", feature)]

structure ListedInstruction where
  address : Address
  features : List ListedFeature

def ListedInstruction.unit (i : ListedInstruction) : Address × InstructionFeatures :=
  (i.address, ⟨i.features.map ListedFeature.located⟩)

def ListedInstruction.write (i : ListedInstruction) : Option Value := do
  let features ← i.features.mapM ListedFeature.write
  return .object [("address", writeAddress i.address), ("features", .array features)]

structure ListedBasicBlock where
  address : Address
  features : List ListedFeature
  instructions : List ListedInstruction

def ListedBasicBlock.unit (b : ListedBasicBlock) : Address × BasicBlockFeatures :=
  (b.address, ⟨b.features.map ListedFeature.located,
    OrdMap.ofList (b.instructions.map ListedInstruction.unit)⟩)

def ListedBasicBlock.write (b : ListedBasicBlock) : Option Value := do
  let features ← b.features.mapM ListedFeature.write
  let instructions ← b.instructions.mapM ListedInstruction.write
  return .object [("address", writeAddress b.address), ("features", .array features),
    ("instructions", .array instructions)]

structure ListedFunction where
  address : Address
  features : List ListedFeature
  basicBlocks : List ListedBasicBlock

def ListedFunction.unit (f : ListedFunction) : Address × FunctionFeatures :=
  (f.address, ⟨f.features.map ListedFeature.located,
    OrdMap.ofList (f.basicBlocks.map ListedBasicBlock.unit)⟩)

def ListedFunction.write (f : ListedFunction) : Option Value := do
  let features ← f.features.mapM ListedFeature.write
  let basicBlocks ← f.basicBlocks.mapM ListedBasicBlock.write
  return .object [("address", writeAddress f.address), ("features", .array features),
    ("basic_blocks", .array basicBlocks)]

structure ListedCall where
  address : Address
  name : String
  features : List ListedFeature

def ListedCall.unit (c : ListedCall) : Address × NamedCall :=
  (c.address, ⟨c.name, c.features.map ListedFeature.located⟩)

def ListedCall.write (c : ListedCall) : Option Value := do
  let features ← c.features.mapM ListedFeature.write
  return .object [("address", writeAddress c.address), ("name", .string c.name),
    ("features", .array features)]

structure ListedThread where
  address : Address
  features : List ListedFeature
  calls : List ListedCall

def ListedThread.unit (t : ListedThread) : Address × NamedThread :=
  (t.address, ⟨t.features.map ListedFeature.located,
    OrdMap.ofList (t.calls.map ListedCall.unit)⟩)

def ListedThread.write (t : ListedThread) : Option Value := do
  let features ← t.features.mapM ListedFeature.write
  let calls ← t.calls.mapM ListedCall.write
  return .object [("address", writeAddress t.address), ("features", .array features),
    ("calls", .array calls)]

structure ListedProcess where
  address : Address
  name : String
  features : List ListedFeature
  threads : List ListedThread

def ListedProcess.unit (p : ListedProcess) : Address × NamedProcess :=
  (p.address, ⟨p.name, p.features.map ListedFeature.located,
    OrdMap.ofList (p.threads.map ListedThread.unit)⟩)

def ListedProcess.write (p : ListedProcess) : Option Value := do
  let features ← p.features.mapM ListedFeature.write
  let threads ← p.threads.mapM ListedThread.write
  return .object [("address", writeAddress p.address), ("name", .string p.name),
    ("features", .array features), ("threads", .array threads)]

structure ListedStatic where
  global_ : List ListedGlobal
  file : List ListedFeature
  functions : List ListedFunction

def ListedStatic.tree (s : ListedStatic) : StaticFeatures :=
  ⟨s.global_.map ListedGlobal.feature, s.file.map ListedFeature.located,
    OrdMap.ofList (s.functions.map ListedFunction.unit)⟩

def ListedStatic.write (s : ListedStatic) : Option Value := do
  let global_ ← s.global_.mapM ListedGlobal.write
  let file ← s.file.mapM ListedFeature.write
  let functions ← s.functions.mapM ListedFunction.write
  return .object [("global_", .array global_), ("file", .array file),
    ("functions", .array functions)]

structure ListedDynamic where
  global_ : List ListedGlobal
  file : List ListedFeature
  processes : List ListedProcess

def ListedDynamic.tree (d : ListedDynamic) : NamedDynamic :=
  ⟨d.global_.map ListedGlobal.feature, d.file.map ListedFeature.located,
    OrdMap.ofList (d.processes.map ListedProcess.unit)⟩

def ListedDynamic.write (d : ListedDynamic) : Option Value := do
  let global_ ← d.global_.mapM ListedGlobal.write
  let file ← d.file.mapM ListedFeature.write
  let processes ← d.processes.mapM ListedProcess.write
  return .object [("global_", .array global_), ("file", .array file),
    ("processes", .array processes)]

inductive Listing where
  | static_ (sample : Sample) (features : ListedStatic)
  | dynamic (sample : Sample) (features : ListedDynamic)

/-- The sample a listing lists. -/
def Listing.freeze : Listing → Freeze
  | .static_ sample features => .static_ sample features.tree
  | .dynamic sample features => .dynamic sample features.tree

def SampleHashes.write (h : SampleHashes) : Value :=
  .object [("md5", .string h.md5), ("sha1", .string h.sha1), ("sha256", .string h.sha256)]

def envelope (sample : Sample) (flavor : String) (features : Value) : Value :=
  .object [("version", .number (.posInt currentVersion.toUInt64)),
    ("base_address", writeAddress sample.baseAddress),
    ("sample_hashes", sample.sampleHashes.write), ("flavor", .string flavor),
    ("features", features)]

def Listing.write : Listing → Option Value
  | .static_ sample features => (envelope sample "static") <$> features.write
  | .dynamic sample features => (envelope sample "dynamic") <$> features.write

/-! ## What the wire can hold -/

section

variable [RegexBackend]

def ListedFeature.OnWire (f : ListedFeature) : Prop := f.feature.OnWire

def ListedInstruction.OnWire (i : ListedInstruction) : Prop := ∀ f ∈ i.features, f.OnWire

def ListedBasicBlock.OnWire (b : ListedBasicBlock) : Prop :=
  (∀ f ∈ b.features, f.OnWire) ∧ ∀ i ∈ b.instructions, i.OnWire

def ListedFunction.OnWire (f : ListedFunction) : Prop :=
  (∀ g ∈ f.features, g.OnWire) ∧ ∀ b ∈ f.basicBlocks, b.OnWire

def ListedCall.OnWire (c : ListedCall) : Prop := ∀ f ∈ c.features, f.OnWire

def ListedThread.OnWire (t : ListedThread) : Prop :=
  (∀ f ∈ t.features, f.OnWire) ∧ ∀ c ∈ t.calls, c.OnWire

def ListedProcess.OnWire (p : ListedProcess) : Prop :=
  (∀ f ∈ p.features, f.OnWire) ∧ ∀ t ∈ p.threads, t.OnWire

def ListedStatic.OnWire (s : ListedStatic) : Prop :=
  (∀ g ∈ s.global_, g.feature.OnWire) ∧ (∀ f ∈ s.file, f.OnWire) ∧ ∀ f ∈ s.functions, f.OnWire

def ListedDynamic.OnWire (d : ListedDynamic) : Prop :=
  (∀ g ∈ d.global_, g.feature.OnWire) ∧ (∀ f ∈ d.file, f.OnWire) ∧ ∀ p ∈ d.processes, p.OnWire

def Listing.OnWire : Listing → Prop
  | .static_ _ features => features.OnWire
  | .dynamic _ features => features.OnWire

end

/-! ## Reading back -/

theorem carried_address (a : Address) :
    ∃ raw, RawAddress.ofJson (writeAddress a) = some raw ∧ raw.toCapa = .ok a :=
  Option.map_eq_some_iff.mp (readAddress a)

section

variable [DebugJson] [RegexBackend]

theorem carried_feature {feature : Feature} (h : feature.OnWire) (description : Option String) :
    ∃ json raw, writeFeature feature description = some json ∧
      RawFeature.ofJson json = some raw ∧ raw.toCapa = .ok feature := by
  obtain ⟨rd, json, hrd, hjson, hread⟩ := readFeature h description
  obtain ⟨raw, hraw, hconvert⟩ := Option.map_eq_some_iff.mp hread
  refine ⟨json, raw, ?_, hraw, hconvert⟩
  unfold writeFeature
  rw [hrd]
  exact hjson

theorem carried_global {g : ListedGlobal} (h : g.feature.OnWire) :
    Carried ListedGlobal.write RawGlobalFeature.ofJson (fun r => r.feature.toCapa) g g.feature := by
  obtain ⟨json, raw, hw, hr, hc⟩ := carried_feature h g.description
  refine ⟨.object [("feature", json)], ⟨raw⟩, ?_, ?_, hc⟩
  · rw [ListedGlobal.write, hw]
    rfl
  · show (RawFeature.ofJson json >>= _) = _
    rw [hr]
    rfl

theorem carried_located {f : ListedFeature} (h : f.OnWire) :
    Carried ListedFeature.write RawLocated.ofJson (fun r => r.toCapa) f f.located := by
  obtain ⟨rawAddress, hra, hca⟩ := carried_address f.address
  obtain ⟨json, raw, hw, hr, hc⟩ := carried_feature h f.description
  refine ⟨.object [("address", writeAddress f.address), ("feature", json)], ⟨rawAddress, raw⟩,
    ?_, ?_, ?_⟩
  · rw [ListedFeature.write, hw]
    rfl
  · show (RawAddress.ofJson (writeAddress f.address) >>= fun a =>
      RawFeature.ofJson json >>= fun f => some (RawLocated.mk a f)) = _
    rw [hra, hr]
    rfl
  · show (rawAddress.toCapa >>= fun _ => raw.toCapa >>= _) = _
    rw [hca, hc]
    rfl

theorem carried_instruction {i : ListedInstruction} (h : i.OnWire) :
    Carried ListedInstruction.write RawInstructionFeatures.ofJson (fun r => r.keyed) i i.unit := by
  obtain ⟨rawAddress, hra, hca⟩ := carried_address i.address
  obtain ⟨fs, rawFs, hwf, hrf, hcf⟩ := Carried.list fun f hf => carried_located (h f hf)
  refine ⟨.object [("address", writeAddress i.address), ("features", .array fs)],
    ⟨rawAddress, rawFs⟩, ?_, ?_, ?_⟩
  · rw [ListedInstruction.write, hwf]
    rfl
  · show (RawAddress.ofJson (writeAddress i.address) >>= fun a =>
      fs.mapM RawLocated.ofJson >>= fun fs => some (RawInstructionFeatures.mk a fs)) = _
    rw [hra, hrf]
    rfl
  · show (rawAddress.toCapa >>= fun _ =>
      (rawFs.mapM (fun r => r.toCapa) >>= _) >>= _) = _
    rw [hca, hcf]
    rfl

theorem carried_basicBlock {b : ListedBasicBlock} (h : b.OnWire) :
    Carried ListedBasicBlock.write RawBasicBlockFeatures.ofJson (fun r => r.keyed) b b.unit := by
  obtain ⟨rawAddress, hra, hca⟩ := carried_address b.address
  obtain ⟨fs, rawFs, hwf, hrf, hcf⟩ := Carried.list fun f hf => carried_located (h.1 f hf)
  obtain ⟨us, rawUs, hwu, hru, hcu⟩ := Carried.list fun i hi => carried_instruction (h.2 i hi)
  refine ⟨.object [("address", writeAddress b.address), ("features", .array fs),
    ("instructions", .array us)], ⟨rawAddress, rawFs, rawUs⟩, ?_, ?_, ?_⟩
  · rw [ListedBasicBlock.write, hwf, hwu]
    rfl
  · show (RawAddress.ofJson (writeAddress b.address) >>= fun a =>
      fs.mapM RawLocated.ofJson >>= fun fs => us.mapM RawInstructionFeatures.ofJson >>= fun us =>
        some (RawBasicBlockFeatures.mk a fs us)) = _
    rw [hra, hrf, hru]
    rfl
  · show (rawAddress.toCapa >>= fun _ => (rawFs.mapM (fun r => r.toCapa) >>= fun _ =>
      (OrdMap.ofList <$> rawUs.mapM (fun r => r.keyed)) >>= fun _ => _) >>= _) = _
    rw [hca, hcf, hcu]
    rfl

theorem carried_function {f : ListedFunction} (h : f.OnWire) :
    Carried ListedFunction.write RawFunctionFeatures.ofJson (fun r => r.keyed) f f.unit := by
  obtain ⟨rawAddress, hra, hca⟩ := carried_address f.address
  obtain ⟨fs, rawFs, hwf, hrf, hcf⟩ := Carried.list fun g hg => carried_located (h.1 g hg)
  obtain ⟨us, rawUs, hwu, hru, hcu⟩ := Carried.list fun b hb => carried_basicBlock (h.2 b hb)
  refine ⟨.object [("address", writeAddress f.address), ("features", .array fs),
    ("basic_blocks", .array us)], ⟨rawAddress, rawFs, rawUs⟩, ?_, ?_, ?_⟩
  · rw [ListedFunction.write, hwf, hwu]
    rfl
  · show (RawAddress.ofJson (writeAddress f.address) >>= fun a =>
      fs.mapM RawLocated.ofJson >>= fun fs => us.mapM RawBasicBlockFeatures.ofJson >>= fun us =>
        some (RawFunctionFeatures.mk a fs us)) = _
    rw [hra, hrf, hru]
    rfl
  · show (rawAddress.toCapa >>= fun _ => (rawFs.mapM (fun r => r.toCapa) >>= fun _ =>
      (OrdMap.ofList <$> rawUs.mapM (fun r => r.keyed)) >>= fun _ => _) >>= _) = _
    rw [hca, hcf, hcu]
    rfl

theorem carried_static {s : ListedStatic} (h : s.OnWire) :
    Carried ListedStatic.write RawStaticFeatures.ofJson (fun r => r.toCapa) s s.tree := by
  obtain ⟨gs, rawGs, hwg, hrg, hcg⟩ := Carried.list fun g hg => carried_global (h.1 g hg)
  obtain ⟨fs, rawFs, hwf, hrf, hcf⟩ := Carried.list fun f hf => carried_located (h.2.1 f hf)
  obtain ⟨us, rawUs, hwu, hru, hcu⟩ := Carried.list fun f hf => carried_function (h.2.2 f hf)
  refine ⟨.object [("global_", .array gs), ("file", .array fs), ("functions", .array us)],
    ⟨rawGs, rawFs, rawUs⟩, ?_, ?_, ?_⟩
  · rw [ListedStatic.write, hwg, hwf, hwu]
    rfl
  · show (gs.mapM RawGlobalFeature.ofJson >>= fun _ => fs.mapM RawLocated.ofJson >>= fun _ =>
      us.mapM RawFunctionFeatures.ofJson >>= _) = _
    rw [hrg, hrf, hru]
    rfl
  · show (rawGs.mapM (fun g => g.feature.toCapa) >>= fun _ =>
      rawFs.mapM (fun r => r.toCapa) >>= fun _ =>
      (OrdMap.ofList <$> rawUs.mapM (fun r => r.keyed)) >>= fun _ => _) = _
    rw [hcg, hcf, hcu]
    rfl

theorem carried_call {c : ListedCall} (h : c.OnWire) :
    Carried ListedCall.write RawCallFeatures.ofJson (fun r => r.keyed) c c.unit := by
  obtain ⟨rawAddress, hra, hca⟩ := carried_address c.address
  obtain ⟨fs, rawFs, hwf, hrf, hcf⟩ := Carried.list fun f hf => carried_located (h f hf)
  refine ⟨.object [("address", writeAddress c.address), ("name", .string c.name),
    ("features", .array fs)], ⟨rawAddress, c.name, rawFs⟩, ?_, ?_, ?_⟩
  · rw [ListedCall.write, hwf]
    rfl
  · show (RawAddress.ofJson (writeAddress c.address) >>= fun a =>
      fs.mapM RawLocated.ofJson >>= fun fs => some (RawCallFeatures.mk a c.name fs)) = _
    rw [hra, hrf]
    rfl
  · show (rawAddress.toCapa >>= fun _ =>
      (rawFs.mapM (fun r => r.toCapa) >>= _) >>= _) = _
    rw [hca, hcf]
    rfl

theorem carried_thread {t : ListedThread} (h : t.OnWire) :
    Carried ListedThread.write RawThreadFeatures.ofJson (fun r => r.keyed) t t.unit := by
  obtain ⟨rawAddress, hra, hca⟩ := carried_address t.address
  obtain ⟨fs, rawFs, hwf, hrf, hcf⟩ := Carried.list fun f hf => carried_located (h.1 f hf)
  obtain ⟨us, rawUs, hwu, hru, hcu⟩ := Carried.list fun c hc => carried_call (h.2 c hc)
  refine ⟨.object [("address", writeAddress t.address), ("features", .array fs),
    ("calls", .array us)], ⟨rawAddress, rawFs, rawUs⟩, ?_, ?_, ?_⟩
  · rw [ListedThread.write, hwf, hwu]
    rfl
  · show (RawAddress.ofJson (writeAddress t.address) >>= fun a =>
      fs.mapM RawLocated.ofJson >>= fun fs => us.mapM RawCallFeatures.ofJson >>= fun us =>
        some (RawThreadFeatures.mk a fs us)) = _
    rw [hra, hrf, hru]
    rfl
  · show (rawAddress.toCapa >>= fun _ => (rawFs.mapM (fun r => r.toCapa) >>= fun _ =>
      (OrdMap.ofList <$> rawUs.mapM (fun r => r.keyed)) >>= fun _ => _) >>= _) = _
    rw [hca, hcf, hcu]
    rfl

theorem carried_process {p : ListedProcess} (h : p.OnWire) :
    Carried ListedProcess.write RawProcessFeatures.ofJson (fun r => r.keyed) p p.unit := by
  obtain ⟨rawAddress, hra, hca⟩ := carried_address p.address
  obtain ⟨fs, rawFs, hwf, hrf, hcf⟩ := Carried.list fun f hf => carried_located (h.1 f hf)
  obtain ⟨us, rawUs, hwu, hru, hcu⟩ := Carried.list fun t ht => carried_thread (h.2 t ht)
  refine ⟨.object [("address", writeAddress p.address), ("name", .string p.name),
    ("features", .array fs), ("threads", .array us)], ⟨rawAddress, p.name, rawFs, rawUs⟩,
    ?_, ?_, ?_⟩
  · rw [ListedProcess.write, hwf, hwu]
    rfl
  · show (RawAddress.ofJson (writeAddress p.address) >>= fun a =>
      fs.mapM RawLocated.ofJson >>= fun fs => us.mapM RawThreadFeatures.ofJson >>= fun us =>
        some (RawProcessFeatures.mk a p.name fs us)) = _
    rw [hra, hrf]
    show (us.mapM RawThreadFeatures.ofJson >>= _) = _
    rw [hru]
    rfl
  · show (rawAddress.toCapa >>= fun _ => (rawFs.mapM (fun r => r.toCapa) >>= fun _ =>
      (OrdMap.ofList <$> rawUs.mapM (fun r => r.keyed)) >>= fun _ => _) >>= _) = _
    rw [hca, hcf, hcu]
    rfl

theorem carried_dynamic {d : ListedDynamic} (h : d.OnWire) :
    Carried ListedDynamic.write RawDynamicFeatures.ofJson (fun r => r.toCapa) d d.tree := by
  obtain ⟨gs, rawGs, hwg, hrg, hcg⟩ := Carried.list fun g hg => carried_global (h.1 g hg)
  obtain ⟨fs, rawFs, hwf, hrf, hcf⟩ := Carried.list fun f hf => carried_located (h.2.1 f hf)
  obtain ⟨us, rawUs, hwu, hru, hcu⟩ := Carried.list fun p hp => carried_process (h.2.2 p hp)
  refine ⟨.object [("global_", .array gs), ("file", .array fs), ("processes", .array us)],
    ⟨rawGs, rawFs, rawUs⟩, ?_, ?_, ?_⟩
  · rw [ListedDynamic.write, hwg, hwf, hwu]
    rfl
  · show (gs.mapM RawGlobalFeature.ofJson >>= fun _ => fs.mapM RawLocated.ofJson >>= fun _ =>
      us.mapM RawProcessFeatures.ofJson >>= _) = _
    rw [hrg, hrf, hru]
    rfl
  · show (rawGs.mapM (fun g => g.feature.toCapa) >>= fun _ =>
      rawFs.mapM (fun r => r.toCapa) >>= fun _ =>
      (OrdMap.ofList <$> rawUs.mapM (fun r => r.keyed)) >>= fun _ => _) = _
    rw [hcg, hcf, hcu]
    rfl

end

/-! ## Whole documents -/

theorem read_envelope (sample : Sample) (flavor : String) (features : Value) :
    ∃ rawAddress, RawFreeze.ofJson (envelope sample flavor features) =
        some ⟨currentVersion, rawAddress, sample.sampleHashes, flavor, features⟩ ∧
      rawAddress.toCapa = .ok sample.baseAddress := by
  obtain ⟨rawAddress, hra, hca⟩ := carried_address sample.baseAddress
  refine ⟨rawAddress, ?_, hca⟩
  show (toU32? currentVersion.toUInt64 >>= fun _ =>
    RawAddress.ofJson (writeAddress sample.baseAddress) >>= fun a =>
      some (RawFreeze.mk currentVersion a sample.sampleHashes flavor features)) = _
  rw [toU32?_toUInt64, hra]
  rfl

section

variable [DebugJson] [RegexBackend]

/-- A listing of features the wire can hold loads as the sample it lists: the units of a level in
    address order, of two units at one address the later one. -/
theorem loads_write {l : Listing} (h : l.OnWire) :
    ∃ document, l.write = some document ∧ loads document = .ok l.freeze := by
  cases l with
  | static_ sample features =>
    obtain ⟨json, raw, hw, hr, hc⟩ := carried_static h
    obtain ⟨rawAddress, henvelope, hca⟩ := read_envelope sample "static" json
    refine ⟨envelope sample "static" json, congrArg (Option.map (envelope sample "static")) hw, ?_⟩
    rw [loads, henvelope]
    show ((rawAddress.toCapa.mapError LoadError.freeze) >>= fun _ =>
      orJson (RawStaticFeatures.ofJson json) >>= fun _ => _) = _
    rw [hca, hr]
    have hc : raw.toCapa = .ok features.tree := hc
    show (raw.toCapa.mapError LoadError.freeze >>= _) = _
    rw [hc]
    rfl
  | dynamic sample features =>
    obtain ⟨json, raw, hw, hr, hc⟩ := carried_dynamic h
    obtain ⟨rawAddress, henvelope, hca⟩ := read_envelope sample "dynamic" json
    refine ⟨envelope sample "dynamic" json, congrArg (Option.map (envelope sample "dynamic")) hw, ?_⟩
    rw [loads, henvelope]
    show ((rawAddress.toCapa.mapError LoadError.freeze) >>= fun _ =>
      orJson (RawDynamicFeatures.ofJson json) >>= fun _ => _) = _
    rw [hca, hr]
    have hc : raw.toCapa = .ok features.tree := hc
    show (raw.toCapa.mapError LoadError.freeze >>= _) = _
    rw [hc]
    rfl

end

end CapaX
