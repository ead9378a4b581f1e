import CapaX.Wire.Listing

/-
  The other direction: whatever document `loads` accepts, the tree it loads can be written, and the
  written document loads as the same tree (`loads_rewritten`). Every feature of a loaded tree is one
  the wire can hold, because the reader checks what the wire restricts: the operand index, the range
  of an offset, the regular expression. Numbers of the JSON library are never infinite and never a
  NaN, which `Value.Finite` says of a document.
-/

namespace CapaX

open Json Collections Control Codec

/-! ## Numbers of a document -/

namespace Json

/-- The number stands somewhere in the value. -/
inductive Value.Holds (n : Number) : Value → Prop
  | number : Value.Holds n (.number n)
  | item {items : List Value} {v : Value} (h : v ∈ items) (hv : Value.Holds n v) :
    Value.Holds n (.array items)
  | entry {entries : List (String × Value)} {e : String × Value} (h : e ∈ entries)
    (hv : Value.Holds n e.2) : Value.Holds n (.object entries)

/-- No float of the value is infinite or a NaN. -/
def Value.Finite (v : Value) : Prop := ∀ x, v.Holds (.float x) → x.IsFinite

theorem mem_of_get {entries : List (String × Value)} {key : String} {v : Value}
    (h : get entries key = some v) : ∃ e ∈ entries, e.2 = v := by
  obtain ⟨e, he, rfl⟩ := Option.map_eq_some_iff.mp h
  exact ⟨e, List.mem_of_find?_eq_some he, rfl⟩

theorem Value.Finite.entry {entries : List (String × Value)} (h : (Value.object entries).Finite)
    {e : String × Value} (he : e ∈ entries) : e.2.Finite :=
  fun x hx => h x (.entry he hx)

theorem Value.Finite.get {entries : List (String × Value)} (h : (Value.object entries).Finite)
    {key : String} {v : Value} (hv : Json.get entries key = some v) : v.Finite := by
  obtain ⟨e, he, rfl⟩ := mem_of_get hv
  exact h.entry he

theorem Value.Finite.entriesOf {v : Value} (h : v.Finite) {fields : List String}
    {entries : List (String × Value)} (hentries : Json.entriesOf fields v = some entries) :
    (Value.object entries).Finite := by
  unfold Json.entriesOf at hentries
  split at hentries
  · exact Option.some.inj hentries ▸ h
  · split at hentries
    · obtain rfl := Option.some.inj hentries
      intro x hx
      cases hx with
      | entry he hv => exact h x (.item (List.of_mem_zip he).2 hv)
    · cases hentries
  · cases hentries

theorem Value.asInt_range {v : Value} {n : Int} (h : v.asInt = some n) :
    -2 ^ 63 ≤ n ∧ n < 2 ^ 64 := by
  unfold Value.asInt at h
  cases hi : v.asI64 with
  | some m =>
    rw [hi] at h
    obtain rfl := Option.some.inj h
    unfold Value.asI64 at hi
    split at hi
    · next num =>
      unfold Number.asI64 at hi
      split at hi
      · next u =>
        split at hi
        · next hlt =>
          obtain rfl := Option.some.inj hi
          omega
        · cases hi
      · next i =>
        obtain rfl := Option.some.inj hi
        have hmin := i.le_toInt
        have hmax := i.toInt_lt
        omega
      · cases hi
    · cases hi
  | none =>
    rw [hi] at h
    obtain ⟨u, _, rfl⟩ := Option.map_eq_some_iff.mp h
    have hlt := u.toNat_lt
    omega

end Json

/-! ## Features that are read -/

theorem CompiledRegex.raw_of_compile [RegexBackend] {raw : String} {re : CompiledRegex}
    (h : CompiledRegex.compile raw = .ok re) : re.raw = raw := by
  unfold CompiledRegex.compile at h
  split at h
  · cases h
  · dsimp only at h
    split at h
    · rw [← Except.ok.inj h]
    · cases h

theorem orInvalid_ok {α : Type} {o : Option α} {message : String} {a : α}
    (h : orInvalid o message = .ok a) : o = some a := by
  unfold orInvalid at h
  split at h
  · exact congrArg some (Except.ok.inj h)
  · cases h

/-- The floats among the entries of a feature are numbers. -/
def RawFeature.Finite (f : RawFeature) : Prop := ∀ e ∈ f.rest, e.2.Finite

namespace RawFeature

variable {f : RawFeature}

theorem field_finite (hf : f.Finite) {key : String} {v : Value} (h : f.field key = .ok v) :
    v.Finite := by
  obtain ⟨e, he, rfl⟩ := mem_of_get (orInvalid_ok h)
  exact hf e he

theorem intOffset_range {key : String} {n : Int} (h : f.intOffset key = .ok n) :
    -2 ^ 63 ≤ n ∧ n < 2 ^ 63 := by
  obtain ⟨m, _, h⟩ := bind_eq_ok.mp h
  split at h
  · next hrange => exact Except.ok.inj h ▸ hrange
  · cases h

theorem operandIndex_le {n : Nat} (h : f.operandIndex = .ok n) : n ≤ maxOperandIndex := by
  obtain ⟨m, _, h⟩ := bind_eq_ok.mp h
  split at h
  · cases h
  · next hrange =>
    obtain rfl := Except.ok.inj h
    omega

theorem numberField_onWire (hf : f.Finite) {key : String} {n : NumberValue}
    (h : f.numberField key = .ok n) : n.OnWire := by
  obtain ⟨v, hv, h⟩ := bind_eq_ok.mp h
  split at h
  · next i hi =>
    obtain rfl := Except.ok.inj h
    exact Value.asInt_range hi
  · obtain ⟨x, hx, rfl⟩ := map_eq_ok h
    have hfloat : v = .number (.float x) := by
      have hx := orInvalid_ok hx
      unfold Value.asF64 at hx
      split at hx
      · next num =>
        unfold Number.asF64 at hx
        split at hx
        · rw [Option.some.inj hx]
        · cases hx
        · cases hx
      · cases hx
    exact field_finite hf hv x (hfloat ▸ .number)

theorem ofJson_finite {v : Value} (hv : v.Finite) (h : RawFeature.ofJson v = some f) :
    f.Finite := by
  unfold RawFeature.ofJson at h
  split at h
  · obtain ⟨_, _, h⟩ := Option.bind_eq_some_iff.mp h
    obtain ⟨_, _, h⟩ := Option.bind_eq_some_iff.mp h
    obtain rfl := Option.some.inj h
    exact fun e he => hv.entry (List.mem_of_mem_filter he)
  · cases h

variable [RegexBackend]

theorem onWire_of_map {α : Type} {x : Except FreezeError α} {g : α → Feature} {feature : Feature}
    (h : g <$> x = .ok feature) (hg : ∀ a, x = .ok a → (g a).OnWire) : feature.OnWire := by
  obtain ⟨a, ha, rfl⟩ := map_eq_ok h
  exact hg a ha

variable [DebugJson]

/-- The reader accepts no feature that the wire cannot hold. -/
theorem toCapa_onWire (hf : f.Finite) {feature : Feature} (h : f.toCapa = .ok feature) :
    feature.OnWire := by
  obtain ⟨_, _, h⟩ := bind_eq_ok.mp h
  unfold toCapaOfKind at h
  split at h
  case h_11 =>
    obtain ⟨raw, _, h⟩ := bind_eq_ok.mp h
    obtain ⟨re, hre, h⟩ := bind_eq_ok.mp h
    obtain rfl := Except.ok.inj h
    have hcompile := mapError_eq_ok.mp hre
    show CompiledRegex.compile re.raw = .ok re
    rw [CompiledRegex.raw_of_compile hcompile, hcompile]
  case h_15 => exact Except.ok.inj h ▸ trivial
  case h_17 =>
    obtain ⟨_, _, h⟩ := bind_eq_ok.mp h
    obtain ⟨_, _, h⟩ := bind_eq_ok.mp h
    exact Except.ok.inj h ▸ trivial
  case h_18 => exact onWire_of_map h fun _ hn => numberField_onWire hf hn
  case h_19 =>
    obtain ⟨_, _, h⟩ := bind_eq_ok.mp h
    obtain ⟨_, _, h⟩ := bind_eq_ok.mp h
    exact Except.ok.inj h ▸ trivial
  case h_20 => exact onWire_of_map h fun _ hn => intOffset_range hn
  case h_22 =>
    obtain ⟨index, hindex, h⟩ := bind_eq_ok.mp h
    obtain ⟨v, hv, h⟩ := bind_eq_ok.mp h
    obtain rfl := Except.ok.inj h
    exact ⟨operandIndex_le hindex, numberField_onWire hf hv⟩
  case h_23 =>
    obtain ⟨index, hindex, h⟩ := bind_eq_ok.mp h
    obtain ⟨v, hv, h⟩ := bind_eq_ok.mp h
    obtain rfl := Except.ok.inj h
    exact ⟨operandIndex_le hindex, intOffset_range hv⟩
  case h_24 => cases h
  -- the remaining kinds hold a string
  all_goals exact onWire_of_map h fun _ _ => trivial

end RawFeature

/-! ## Loaded trees as listings -/

def listFeature (f : Located) : ListedFeature := ⟨f.1, f.2, none⟩

def listInstruction (e : Address × InstructionFeatures) : ListedInstruction :=
  ⟨e.1, e.2.features.map listFeature⟩

def listBasicBlock (e : Address × BasicBlockFeatures) : ListedBasicBlock :=
  ⟨e.1, e.2.features.map listFeature, e.2.instructions.entries.map listInstruction⟩

def listFunction (e : Address × FunctionFeatures) : ListedFunction :=
  ⟨e.1, e.2.features.map listFeature, e.2.basicBlocks.entries.map listBasicBlock⟩

def listCall (e : Address × NamedCall) : ListedCall :=
  ⟨e.1, e.2.name, e.2.features.map listFeature⟩

def listThread (e : Address × NamedThread) : ListedThread :=
  ⟨e.1, e.2.features.map listFeature, e.2.calls.entries.map listCall⟩

def listProcess (e : Address × NamedProcess) : ListedProcess :=
  ⟨e.1, e.2.name, e.2.features.map listFeature, e.2.threads.entries.map listThread⟩

def listStatic (s : StaticFeatures) : ListedStatic :=
  ⟨s.globalFeatures.map fun f => ⟨f, none⟩, s.fileFeatures.map listFeature,
    s.functions.entries.map listFunction⟩

def listDynamic (d : NamedDynamic) : ListedDynamic :=
  ⟨d.globalFeatures.map fun f => ⟨f, none⟩, d.fileFeatures.map listFeature,
    d.processes.entries.map listProcess⟩

/-- The listing of a tree: its units in address order, no descriptions. -/
def Freeze.listing : Freeze → Listing
  | .static_ sample features => .static_ sample (listStatic features)
  | .dynamic sample features => .dynamic sample (listDynamic features)

theorem map_listed {α β : Type} {list : α → β} {unit : β → α} (h : ∀ e, unit (list e) = e)
    (es : List α) : (es.map list).map unit = es := by
  rw [List.map_map]
  exact (List.map_congr_left fun e _ => h e).trans (List.map_id es)

/-- A level of a tree lists as itself. -/
theorem ofList_listed {α β : Type} {list : Address × α → β} {unit : β → Address × α}
    (h : ∀ e, unit (list e) = e) (m : OrdMap Address α) :
    OrdMap.ofList ((m.entries.map list).map unit) = m := by
  rw [map_listed h, OrdMap.ofList_entries]

theorem located_listed (fs : List Located) :
    (fs.map listFeature).map ListedFeature.located = fs :=
  map_listed (fun _ => rfl) fs

theorem unit_listInstruction (e : Address × InstructionFeatures) :
    (listInstruction e).unit = e := by
  unfold ListedInstruction.unit listInstruction
  rw [located_listed]

theorem unit_listBasicBlock (e : Address × BasicBlockFeatures) : (listBasicBlock e).unit = e := by
  unfold ListedBasicBlock.unit listBasicBlock
  rw [located_listed, ofList_listed unit_listInstruction]

theorem unit_listFunction (e : Address × FunctionFeatures) : (listFunction e).unit = e := by
  unfold ListedFunction.unit listFunction
  rw [located_listed, ofList_listed unit_listBasicBlock]

theorem unit_listCall (e : Address × NamedCall) : (listCall e).unit = e := by
  unfold ListedCall.unit listCall
  rw [located_listed]

theorem unit_listThread (e : Address × NamedThread) : (listThread e).unit = e := by
  unfold ListedThread.unit listThread
  rw [located_listed, ofList_listed unit_listCall]

theorem unit_listProcess (e : Address × NamedProcess) : (listProcess e).unit = e := by
  unfold ListedProcess.unit listProcess
  rw [located_listed, ofList_listed unit_listThread]

theorem freeze_listing (t : Freeze) : t.listing.freeze = t := by
  cases t with
  | static_ sample features =>
    show Freeze.static_ sample (listStatic features).tree = _
    unfold ListedStatic.tree listStatic
    rw [located_listed, ofList_listed unit_listFunction, map_listed fun _ => rfl]
  | dynamic sample features =>
    show Freeze.dynamic sample (listDynamic features).tree = _
    unfold ListedDynamic.tree listDynamic
    rw [located_listed, ofList_listed unit_listProcess, map_listed fun _ => rfl]

/-! ## Accepted documents -/

theorem mem_of_readItems {ρ : Type} {read : Value → Option ρ} {entries : List (String × Value)}
    {key : String} {raws : List ρ} (hfin : (Value.object entries).Finite)
    (h : readItems read entries key = some raws) {r : ρ} (hr : r ∈ raws) :
    ∃ item : Value, item.Finite ∧ read item = some r := by
  obtain ⟨v, hv, h⟩ := Option.bind_eq_some_iff.mp h
  obtain ⟨items, hitems, h⟩ := Option.bind_eq_some_iff.mp h
  obtain ⟨item, hitem, hread⟩ := mem_of_mapM_some h hr
  have harray : v = .array items := by
    unfold Value.asArray at hitems
    split at hitems
    · rw [Option.some.inj hitems]
    · cases hitems
  refine ⟨item, fun x hx => hfin.get hv x ?_, hread⟩
  rw [harray]
  exact .item hitem hx

/-- What a loop over the items of a document returns was read from items of the document. -/
theorem of_readItems {ρ β : Type} {read : Value → Option ρ} {convert : ρ → Except FreezeError β}
    {P : β → Prop} (hitem : ∀ item : Value, item.Finite → ∀ r, read item = some r → ∀ b,
      convert r = .ok b → P b)
    {entries : List (String × Value)} {key : String} {raws : List ρ} {bs : List β}
    (hfin : (Value.object entries).Finite) (hread : readItems read entries key = some raws)
    (h : raws.mapM convert = .ok bs) {b : β} (hb : b ∈ bs) : P b := by
  obtain ⟨r, hr, hc⟩ := mem_of_mapM_ok h hb
  obtain ⟨item, hf, hi⟩ := mem_of_readItems hfin hread hr
  exact hitem item hf r hi b hc

/-- The same for a level of units. -/
theorem of_collectUnits {ρ α : Type} {read : Value → Option ρ}
    {keyed : ρ → Except FreezeError (Address × α)} {P : Address × α → Prop}
    (hitem : ∀ item : Value, item.Finite → ∀ r, read item = some r → ∀ e,
      keyed r = .ok e → P e)
    {entries : List (String × Value)} {key : String} {raws : List ρ} {m : OrdMap Address α}
    (hfin : (Value.object entries).Finite) (hread : readItems read entries key = some raws)
    (h : collectUnits keyed raws = .ok m) {e : Address × α} (he : e ∈ m.entries) : P e := by
  obtain ⟨es, hes, rfl⟩ := map_eq_ok h
  exact of_readItems hitem hfin hread hes (OrdMap.mem_of_mem_ofList he)

theorem keyedBy_ok {α : Type} {address : RawAddress} {unit : Except FreezeError α}
    {e : Address × α} (h : keyedBy address unit = .ok e) : unit = .ok e.2 := by
  obtain ⟨_, _, h⟩ := bind_eq_ok.mp h
  obtain ⟨u, hu, h⟩ := bind_eq_ok.mp h
  rw [← Except.ok.inj h]
  exact hu

theorem forall_mem_map {α β : Type} {P : β → Prop} {list : α → β} {as : List α}
    (h : ∀ a ∈ as, P (list a)) : ∀ b ∈ as.map list, P b := by
  intro b hb
  obtain ⟨a, ha, rfl⟩ := List.mem_map.mp hb
  exact h a ha

theorem orJson_ok {α : Type} {o : Option α} {a : α} (h : orJson o = .ok a) : o = some a := by
  unfold orJson at h
  split at h
  · exact congrArg some (Except.ok.inj h)
  · cases h

theorem features_finite {document : Value} (hfin : document.Finite) {e : RawFreeze}
    (h : RawFreeze.ofJson document = some e) : e.features.Finite := by
  unfold RawFreeze.ofJson at h
  obtain ⟨entries, hentries, h⟩ := Option.bind_eq_some_iff.mp h
  have hfin := hfin.entriesOf hentries
  obtain ⟨_, _, h⟩ := Option.bind_eq_some_iff.mp h
  obtain ⟨_, _, h⟩ := Option.bind_eq_some_iff.mp h
  obtain ⟨_, _, h⟩ := Option.bind_eq_some_iff.mp h
  obtain ⟨_, _, h⟩ := Option.bind_eq_some_iff.mp h
  obtain ⟨_, _, h⟩ := Option.bind_eq_some_iff.mp h
  obtain ⟨_, _, h⟩ := Option.bind_eq_some_iff.mp h
  obtain ⟨_, _, h⟩ := Option.bind_eq_some_iff.mp h
  obtain ⟨_, _, h⟩ := Option.bind_eq_some_iff.mp h
  obtain ⟨features, hfeatures, h⟩ := Option.bind_eq_some_iff.mp h
  obtain rfl := Option.some.inj h
  exact hfin.get hfeatures

section

variable [DebugJson] [RegexBackend]

theorem global_onWire {v : Value} (hv : v.Finite) {g : RawGlobalFeature}
    (hread : RawGlobalFeature.ofJson v = some g) {feature : Feature}
    (h : g.feature.toCapa = .ok feature) : feature.OnWire := by
  unfold RawGlobalFeature.ofJson at hread
  obtain ⟨entries, hentries, hread⟩ := Option.bind_eq_some_iff.mp hread
  have hv := hv.entriesOf hentries
  obtain ⟨json, hjson, hread⟩ := Option.bind_eq_some_iff.mp hread
  obtain ⟨raw, hraw, hread⟩ := Option.bind_eq_some_iff.mp hread
  obtain rfl := Option.some.inj hread
  exact RawFeature.toCapa_onWire (RawFeature.ofJson_finite (hv.get hjson) hraw) h

theorem located_onWire {v : Value} (hv : v.Finite) {r : RawLocated}
    (hread : RawLocated.ofJson v = some r) {f : Located} (h : r.toCapa = .ok f) :
    (listFeature f).OnWire := by
  unfold RawLocated.ofJson at hread
  obtain ⟨entries, hentries, hread⟩ := Option.bind_eq_some_iff.mp hread
  have hv := hv.entriesOf hentries
  obtain ⟨_, _, hread⟩ := Option.bind_eq_some_iff.mp hread
  obtain ⟨_, _, hread⟩ := Option.bind_eq_some_iff.mp hread
  obtain ⟨json, hjson, hread⟩ := Option.bind_eq_some_iff.mp hread
  obtain ⟨raw, hraw, hread⟩ := Option.bind_eq_some_iff.mp hread
  obtain rfl := Option.some.inj hread
  obtain ⟨_, _, h⟩ := bind_eq_ok.mp h
  obtain ⟨feature, hfeature, h⟩ := bind_eq_ok.mp h
  obtain rfl := Except.ok.inj h
  exact RawFeature.toCapa_onWire (RawFeature.ofJson_finite (hv.get hjson) hraw) hfeature

/-- The features of a unit, as a document lists them. -/
theorem features_onWire {entries : List (String × Value)} (hv : (Value.object entries).Finite)
    {raws : List RawLocated} (hread : readItems RawLocated.ofJson entries "features" = some raws)
    {fs : List Located} (h : raws.mapM (fun r => r.toCapa) = .ok fs) :
    ∀ f ∈ fs.map listFeature, f.OnWire :=
  forall_mem_map fun _ hf =>
    of_readItems (P := fun f => (listFeature f).OnWire)
      (fun _ hfin _ hr _ hc => located_onWire hfin hr hc) hv hread h hf

theorem instruction_onWire {v : Value} (hv : v.Finite) {r : RawInstructionFeatures}
    (hread : RawInstructionFeatures.ofJson v = some r) {e : Address × InstructionFeatures}
    (h : r.keyed = .ok e) : (listInstruction e).OnWire := by
  unfold RawInstructionFeatures.ofJson at hread
  obtain ⟨entries, hentries, hread⟩ := Option.bind_eq_some_iff.mp hread
  have hv := hv.entriesOf hentries
  obtain ⟨_, _, hread⟩ := Option.bind_eq_some_iff.mp hread
  obtain ⟨_, _, hread⟩ := Option.bind_eq_some_iff.mp hread
  obtain ⟨raws, hraws, hread⟩ := Option.bind_eq_some_iff.mp hread
  obtain rfl := Option.some.inj hread
  obtain ⟨fs, hfs, h⟩ := bind_eq_ok.mp (keyedBy_ok h)
  have he : ⟨fs⟩ = e.2 := Except.ok.inj h
  unfold ListedInstruction.OnWire listInstruction
  rw [← he]
  exact features_onWire hv hraws hfs

theorem basicBlock_onWire {v : Value} (hv : v.Finite) {r : RawBasicBlockFeatures}
    (hread : RawBasicBlockFeatures.ofJson v = some r) {e : Address × BasicBlockFeatures}
    (h : r.keyed = .ok e) : (listBasicBlock e).OnWire := by
  unfold RawBasicBlockFeatures.ofJson at hread
  obtain ⟨entries, hentries, hread⟩ := Option.bind_eq_some_iff.mp hread
  have hv := hv.entriesOf hentries
  obtain ⟨_, _, hread⟩ := Option.bind_eq_some_iff.mp hread
  obtain ⟨_, _, hread⟩ := Option.bind_eq_some_iff.mp hread
  obtain ⟨raws, hraws, hread⟩ := Option.bind_eq_some_iff.mp hread
  obtain ⟨units, hunits, hread⟩ := Option.bind_eq_some_iff.mp hread
  obtain rfl := Option.some.inj hread
  obtain ⟨fs, hfs, h⟩ := bind_eq_ok.mp (keyedBy_ok h)
  obtain ⟨m, hm, h⟩ := bind_eq_ok.mp h
  have he : ⟨fs, m⟩ = e.2 := Except.ok.inj h
  unfold ListedBasicBlock.OnWire listBasicBlock
  rw [← he]
  exact ⟨features_onWire hv hraws hfs, forall_mem_map fun _ hi =>
    of_collectUnits (P := fun e => (listInstruction e).OnWire)
      (fun _ hfin _ hr _ hc => instruction_onWire hfin hr hc) hv hunits hm hi⟩

theorem function_onWire {v : Value} (hv : v.Finite) {r : RawFunctionFeatures}
    (hread : RawFunctionFeatures.ofJson v = some r) {e : Address × FunctionFeatures}
    (h : r.keyed = .ok e) : (listFunction e).OnWire := by
  unfold RawFunctionFeatures.ofJson at hread
  obtain ⟨entries, hentries, hread⟩ := Option.bind_eq_some_iff.mp hread
  have hv := hv.entriesOf hentries
  obtain ⟨_, _, hread⟩ := Option.bind_eq_some_iff.mp hread
  obtain ⟨_, _, hread⟩ := Option.bind_eq_some_iff.mp hread
  obtain ⟨raws, hraws, hread⟩ := Option.bind_eq_some_iff.mp hread
  obtain ⟨units, hunits, hread⟩ := Option.bind_eq_some_iff.mp hread
  obtain rfl := Option.some.inj hread
  obtain ⟨fs, hfs, h⟩ := bind_eq_ok.mp (keyedBy_ok h)
  obtain ⟨m, hm, h⟩ := bind_eq_ok.mp h
  have he : ⟨fs, m⟩ = e.2 := Except.ok.inj h
  unfold ListedFunction.OnWire listFunction
  rw [← he]
  exact ⟨features_onWire hv hraws hfs, forall_mem_map fun _ hb =>
    of_collectUnits (P := fun e => (listBasicBlock e).OnWire)
      (fun _ hfin _ hr _ hc => basicBlock_onWire hfin hr hc) hv hunits hm hb⟩

theorem static_onWire {v : Value} (hv : v.Finite) {r : RawStaticFeatures}
    (hread : RawStaticFeatures.ofJson v = some r) {s : StaticFeatures} (h : r.toCapa = .ok s) :
    (listStatic s).OnWire := by
  unfold RawStaticFeatures.ofJson at hread
  obtain ⟨entries, hentries, hread⟩ := Option.bind_eq_some_iff.mp hread
  have hv := hv.entriesOf hentries
  obtain ⟨globals, hglobals, hread⟩ := Option.bind_eq_some_iff.mp hread
  obtain ⟨files, hfiles, hread⟩ := Option.bind_eq_some_iff.mp hread
  obtain ⟨units, hunits, hread⟩ := Option.bind_eq_some_iff.mp hread
  obtain rfl := Option.some.inj hread
  obtain ⟨gs, hgs, h⟩ := bind_eq_ok.mp h
  obtain ⟨fs, hfs, h⟩ := bind_eq_ok.mp h
  obtain ⟨m, hm, h⟩ := bind_eq_ok.mp h
  obtain rfl := Except.ok.inj h
  refine ⟨forall_mem_map fun _ hg => ?_, forall_mem_map fun _ hf => ?_,
    forall_mem_map fun _ hu => ?_⟩
  · exact of_readItems (P := Feature.OnWire)
      (fun _ hfin _ hr _ hc => global_onWire hfin hr hc) hv hglobals hgs hg
  · exact of_readItems (P := fun f => (listFeature f).OnWire)
      (fun _ hfin _ hr _ hc => located_onWire hfin hr hc) hv hfiles hfs hf
  · exact of_collectUnits (P := fun e => (listFunction e).OnWire)
      (fun _ hfin _ hr _ hc => function_onWire hfin hr hc) hv hunits hm hu

theorem call_onWire {v : Value} (hv : v.Finite) {r : RawCallFeatures}
    (hread : RawCallFeatures.ofJson v = some r) {e : Address × NamedCall}
    (h : r.keyed = .ok e) : (listCall e).OnWire := by
  unfold RawCallFeatures.ofJson at hread
  obtain ⟨entries, hentries, hread⟩ := Option.bind_eq_some_iff.mp hread
  have hv := hv.entriesOf hentries
  obtain ⟨_, _, hread⟩ := Option.bind_eq_some_iff.mp hread
  obtain ⟨_, _, hread⟩ := Option.bind_eq_some_iff.mp hread
  obtain ⟨name, _, hread⟩ := Option.bind_eq_some_iff.mp hread
  obtain ⟨raws, hraws, hread⟩ := Option.bind_eq_some_iff.mp hread
  obtain rfl := Option.some.inj hread
  obtain ⟨fs, hfs, h⟩ := bind_eq_ok.mp (keyedBy_ok h)
  have he : ⟨name, fs⟩ = e.2 := Except.ok.inj h
  unfold ListedCall.OnWire listCall
  rw [← he]
  exact features_onWire hv hraws hfs

theorem thread_onWire {v : Value} (hv : v.Finite) {r : RawThreadFeatures}
    (hread : RawThreadFeatures.ofJson v = some r) {e : Address × NamedThread}
    (h : r.keyed = .ok e) : (listThread e).OnWire := by
  unfold RawThreadFeatures.ofJson at hread
  obtain ⟨entries, hentries, hread⟩ := Option.bind_eq_some_iff.mp hread
  have hv := hv.entriesOf hentries
  obtain ⟨_, _, hread⟩ := Option.bind_eq_some_iff.mp hread
  obtain ⟨_, _, hread⟩ := Option.bind_eq_some_iff.mp hread
  obtain ⟨raws, hraws, hread⟩ := Option.bind_eq_some_iff.mp hread
  obtain ⟨units, hunits, hread⟩ := Option.bind_eq_some_iff.mp hread
  obtain rfl := Option.some.inj hread
  obtain ⟨fs, hfs, h⟩ := bind_eq_ok.mp (keyedBy_ok h)
  obtain ⟨m, hm, h⟩ := bind_eq_ok.mp h
  have he : ⟨fs, m⟩ = e.2 := Except.ok.inj h
  unfold ListedThread.OnWire listThread
  rw [← he]
  exact ⟨features_onWire hv hraws hfs, forall_mem_map fun _ hc =>
    of_collectUnits (P := fun e => (listCall e).OnWire)
      (fun _ hfin _ hr _ hc => call_onWire hfin hr hc) hv hunits hm hc⟩

theorem process_onWire {v : Value} (hv : v.Finite) {r : RawProcessFeatures}
    (hread : RawProcessFeatures.ofJson v = some r) {e : Address × NamedProcess}
    (h : r.keyed = .ok e) : (listProcess e).OnWire := by
  unfold RawProcessFeatures.ofJson at hread
  obtain ⟨entries, hentries, hread⟩ := Option.bind_eq_some_iff.mp hread
  have hv := hv.entriesOf hentries
  obtain ⟨_, _, hread⟩ := Option.bind_eq_some_iff.mp hread
  obtain ⟨_, _, hread⟩ := Option.bind_eq_some_iff.mp hread
  obtain ⟨name, _, hread⟩ := Option.bind_eq_some_iff.mp hread
  obtain ⟨raws, hraws, hread⟩ := Option.bind_eq_some_iff.mp hread
  obtain ⟨units, hunits, hread⟩ := Option.bind_eq_some_iff.mp hread
  obtain rfl := Option.some.inj hread
  obtain ⟨fs, hfs, h⟩ := bind_eq_ok.mp (keyedBy_ok h)
  obtain ⟨m, hm, h⟩ := bind_eq_ok.mp h
  have he : ⟨name, fs, m⟩ = e.2 := Except.ok.inj h
  unfold ListedProcess.OnWire listProcess
  rw [← he]
  exact ⟨features_onWire hv hraws hfs, forall_mem_map fun _ ht =>
    of_collectUnits (P := fun e => (listThread e).OnWire)
      (fun _ hfin _ hr _ hc => thread_onWire hfin hr hc) hv hunits hm ht⟩

theorem dynamic_onWire {v : Value} (hv : v.Finite) {r : RawDynamicFeatures}
    (hread : RawDynamicFeatures.ofJson v = some r) {d : NamedDynamic} (h : r.toCapa = .ok d) :
    (listDynamic d).OnWire := by
  unfold RawDynamicFeatures.ofJson at hread
  obtain ⟨entries, hentries, hread⟩ := Option.bind_eq_some_iff.mp hread
  have hv := hv.entriesOf hentries
  obtain ⟨globals, hglobals, hread⟩ := Option.bind_eq_some_iff.mp hread
  obtain ⟨files, hfiles, hread⟩ := Option.bind_eq_some_iff.mp hread
  obtain ⟨units, hunits, hread⟩ := Option.bind_eq_some_iff.mp hread
  obtain rfl := Option.some.inj hread
  obtain ⟨gs, hgs, h⟩ := bind_eq_ok.mp h
  obtain ⟨fs, hfs, h⟩ := bind_eq_ok.mp h
  obtain ⟨m, hm, h⟩ := bind_eq_ok.mp h
  obtain rfl := Except.ok.inj h
  refine ⟨forall_mem_map fun _ hg => ?_, forall_mem_map fun _ hf => ?_,
    forall_mem_map fun _ hu => ?_⟩
  · exact of_readItems (P := Feature.OnWire)
      (fun _ hfin _ hr _ hc => global_onWire hfin hr hc) hv hglobals hgs hg
  · exact of_readItems (P := fun f => (listFeature f).OnWire)
      (fun _ hfin _ hr _ hc => located_onWire hfin hr hc) hv hfiles hfs hf
  · exact of_collectUnits (P := fun e => (listProcess e).OnWire)
      (fun _ hfin _ hr _ hc => process_onWire hfin hr hc) hv hunits hm hu

theorem listing_onWire {document : Value} (hfin : document.Finite) {t : Freeze}
    (h : loads document = .ok t) : t.listing.OnWire := by
  obtain ⟨e, he, h⟩ := bind_eq_ok.mp h
  have hfeatures := features_finite hfin (orJson_ok he)
  split at h
  · cases h
  · obtain ⟨_, _, h⟩ := bind_eq_ok.mp h
    split at h
    · obtain ⟨raw, hraw, h⟩ := bind_eq_ok.mp h
      obtain ⟨s, hs, h⟩ := bind_eq_ok.mp h
      obtain rfl := Except.ok.inj h
      exact static_onWire hfeatures (orJson_ok hraw) (mapError_eq_ok.mp hs)
    · obtain ⟨raw, hraw, h⟩ := bind_eq_ok.mp h
      obtain ⟨d, hd, h⟩ := bind_eq_ok.mp h
      obtain rfl := Except.ok.inj h
      exact dynamic_onWire hfeatures (orJson_ok hraw) (mapError_eq_ok.mp hd)
    · cases h

/-- What a document loads as can be written, and loads as itself again. -/
theorem loads_rewritten {document : Value} (hfin : document.Finite) {t : Freeze}
    (h : loads document = .ok t) :
    ∃ document', t.listing.write = some document' ∧ loads document' = .ok t := by
  obtain ⟨document', hwrite, hload⟩ := loads_write (listing_onWire hfin h)
  rw [freeze_listing] at hload
  exact ⟨document', hwrite, hload⟩

/-- A listing of features the wire can hold loads as the sample it lists, and every document that
    loads at all loads as a sample that can be written and loads as itself again. -/
theorem freeze_roundTrip :
    (∀ l : Listing, l.OnWire →
      ∃ document, l.write = some document ∧ loads document = .ok l.freeze) ∧
    ∀ document : Value, document.Finite → ∀ t, loads document = .ok t →
      t.listing.OnWire ∧
        ∃ document', t.listing.write = some document' ∧ loads document' = .ok t :=
  ⟨fun _ h => loads_write h, fun _ hfin _ h => ⟨listing_onWire hfin h, loads_rewritten hfin h⟩⟩

end

/-! ## A sample with units on every level -/

namespace Json

mutual

/-- The floats of a value, of items and of entries are numbers. -/
def Value.allFinite : Value → Bool
  | .number (.float x) => decide x.IsFinite
  | .array items => itemsFinite items
  | .object entries => entriesFinite entries
  | _ => true

@[inherit_doc Value.allFinite]
def itemsFinite : List Value → Bool
  | [] => true
  | v :: items => v.allFinite && itemsFinite items

@[inherit_doc Value.allFinite]
def entriesFinite : List (String × Value) → Bool
  | [] => true
  | (_, v) :: entries => v.allFinite && entriesFinite entries

end

theorem itemsFinite_iff {items : List Value} :
    itemsFinite items = true ↔ ∀ v ∈ items, v.allFinite = true := by
  induction items with
  | nil => simp [itemsFinite]
  | cons v items ih => simp [itemsFinite, ih]

theorem entriesFinite_iff {entries : List (String × Value)} :
    entriesFinite entries = true ↔ ∀ e ∈ entries, e.2.allFinite = true := by
  induction entries with
  | nil => simp [entriesFinite]
  | cons e entries ih =>
    obtain ⟨key, v⟩ := e
    rw [entriesFinite, Bool.and_eq_true, ih, List.forall_mem_cons]

theorem Value.finite_of_allFinite {v : Value} (h : v.allFinite = true) : v.Finite := by
  intro x hx
  induction hx with
  | number => exact of_decide_eq_true h
  | item hmem _ ih => exact ih (itemsFinite_iff.mp h _ hmem)
  | entry hmem _ ih => exact ih (entriesFinite_iff.mp h _ hmem)

end Json

/-- A process with one thread and two calls, which are listed out of order. -/
def populatedListing : Listing :=
  .dynamic ⟨.noAddress, ⟨"m", "s", "t"⟩⟩
    ⟨[⟨.os "windows", some "the platform"⟩], [⟨.absolute 0x400000, .section_ ".text", none⟩],
      [⟨.process 0 1, "a.exe", [⟨.process 0 1, .string (.plain "a.exe"), none⟩],
        [⟨.thread 0 1 2, [⟨.thread 0 1 2, .characteristic "loop", none⟩],
          [⟨.call 0 1 2 8, "WriteFile", [⟨.call 0 1 2 8, .number (.int (-1)), some "a handle"⟩]⟩,
            ⟨.call 0 1 2 7, "CreateFile", [⟨.call 0 1 2 7, .api "CreateFile", none⟩]⟩]⟩]⟩]⟩

/-- A function with one basic block and one instruction. The envelope, the function and the
    instruction are written as arrays of their fields. -/
def populatedDocument : Value :=
  let located (address : Value) (kind : String) (value : List (String × Value)) : Value :=
    .object [("address", address), ("feature", .object (("type", .string kind) :: value))]
  let absolute (a : UInt64) : Value := .array [.string "absolute", .number (.posInt a)]
  .array [.number (.posInt 3), absolute 0x400000,
    .array [.string "m", .string "s", .string "t"], .string "static",
    .object [
      ("global_", .array [.array [.object [("type", .string "os"), ("os", .string "linux")]]]),
      ("file", .array [located (absolute 0x400000) "section" [("section", .string ".text")]]),
      ("functions", .array [.array [absolute 0x401000,
        .array [located (absolute 0x401000) "characteristic" [("characteristic", .string "loop")]],
        .array [.object [("address", absolute 0x401000), ("features", .array []),
          ("instructions", .array [.array [absolute 0x401004,
            .array [located (absolute 0x401004) "number" [("number", .number (.posInt 16))],
              located (absolute 0x401004) "mnemonic" [("mnemonic", .string "mov")]]]])]]]])]]

theorem freeze_roundTrip_populated :
    (∃ document, populatedListing.write = some document ∧
      @loads .blank .empty document = .ok populatedListing.freeze) ∧
    ∃ t, @loads .blank .empty populatedDocument = .ok t ∧
      t = .static_ ⟨.absolute 0x400000, ⟨"m", "s", "t"⟩⟩ ⟨[.os "linux"],
        [(.absolute 0x400000, .section_ ".text")],
        OrdMap.ofList [(.absolute 0x401000,
          ⟨[(.absolute 0x401000, .characteristic "loop")], OrdMap.ofList [(.absolute 0x401000,
            ⟨[], OrdMap.ofList [(.absolute 0x401004,
              ⟨[(.absolute 0x401004, .number (.int 16)),
                (.absolute 0x401004, .mnemonic "mov")]⟩)]⟩)]⟩)]⟩ ∧
      @Listing.OnWire .empty t.listing ∧ ∃ document', t.listing.write = some document' ∧
        @loads .blank .empty document' = .ok t := by
  have hwire : @Listing.OnWire .empty populatedListing := by
    simp [populatedListing, Listing.OnWire, ListedDynamic.OnWire, ListedProcess.OnWire,
      ListedThread.OnWire, ListedCall.OnWire, ListedFeature.OnWire, Feature.OnWire,
      NumberValue.OnWire]
  exact ⟨(@freeze_roundTrip .blank .empty).1 populatedListing hwire, _, rfl, rfl,
    (@freeze_roundTrip .blank .empty).2 populatedDocument
      (Value.finite_of_allFinite (by decide +kernel)) _ rfl⟩

end CapaX
