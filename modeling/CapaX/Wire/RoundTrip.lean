import CapaX.Wire.Frozen

/-
  What the result document writes, the freeze reader reads back unchanged (`wire_roundTrip`): every
  address, and every feature that the wire can hold.
-/

namespace CapaX

open Json

/-! ## Hexadecimal -/

theorem hexDigit?_hexDigit {d : Nat} (h : d < 16) : hexDigit? (hexDigit d) = some d := by
  have hall : ∀ d : Fin 16, hexDigit? (hexDigit d) = some d.val := by decide
  exact hall ⟨d, h⟩

theorem hexDecode_hexEncode (bytes : List UInt8) :
    hexDecode (hexEncode bytes).toList = some bytes := by
  rw [hexEncode, String.toList_ofList]
  induction bytes with
  | nil => rfl
  | cons b bytes ih =>
    have hlt : b.toNat < 256 := b.toNat_lt
    have hhi : hexDigit? (hexDigit (b.toNat / 16)) = some (b.toNat / 16) :=
      hexDigit?_hexDigit (by omega)
    have hlo : hexDigit? (hexDigit (b.toNat % 16)) = some (b.toNat % 16) :=
      hexDigit?_hexDigit (by omega)
    have hbyte : UInt8.ofNat (b.toNat / 16 * 16 + b.toNat % 16) = b := by
      rw [Nat.div_add_mod', UInt8.ofNat_toNat]
    show hexDecode (hexDigit _ :: hexDigit _ :: bytes.flatMap hexByte) = _
    rw [hexDecode, hhi, hlo, ih]
    show some (UInt8.ofNat _ :: bytes) = _
    rw [hbyte]

/-! ## Addresses -/

theorem toU32?_toUInt64 (v : UInt32) : toU32? v.toUInt64 = some v := by
  unfold toU32?
  rw [UInt32.toNat_toUInt64, if_pos v.toNat_lt, UInt32.toUInt32_toUInt64]

theorem u32Element_toUInt64 (message : String) (v : UInt32) :
    u32Element message (.number (.posInt v.toUInt64)) = .ok v := by
  show orInvalid (toU32? v.toUInt64) message = _
  rw [toU32?_toUInt64]
  rfl

theorem mapM_u32Element (message : String) (vs : List UInt32) :
    (vs.map fun v => Value.number (.posInt v.toUInt64)).mapM (u32Element message) = .ok vs := by
  induction vs with
  | nil => rfl
  | cons v vs ih =>
    rw [List.map_cons, List.mapM_cons, u32Element_toUInt64, ih]
    rfl

/-- A tuple of the right length reads back. -/
theorem asU32Tuple_tuple (vs : List UInt32) (ctx : String) :
    asU32Tuple vs.length (.array (vs.map fun v => .number (.posInt v.toUInt64))) ctx = .ok vs := by
  unfold asU32Tuple Value.asArray
  rw [Option.filter_some, if_pos (by simp)]
  exact mapM_u32Element _ vs

theorem readAddress (a : Address) :
    (RawAddress.ofJson (RdAddress.from a).toJson).map RawAddress.toCapa = some (.ok a) := by
  cases a with
  | absolute v => rfl
  | relative v => rfl
  | file v => rfl
  | dnToken v =>
    show some (orInvalid (toU32? v.toUInt64) _ >>= _) = _
    rw [toU32?_toUInt64]
    rfl
  | dnTokenOffset token offset =>
    show some (asU32Tuple 2 _ "dn token offset address" >>= _) = _
    exact congrArg (fun t => some (t >>= _)) (asU32Tuple_tuple [token, offset] _)
  | process ppid pid =>
    show some (asU32Tuple 2 _ "process address" >>= _) = _
    exact congrArg (fun t => some (t >>= _)) (asU32Tuple_tuple [ppid, pid] _)
  | thread ppid pid tid =>
    show some (asU32Tuple 3 _ "thread address" >>= _) = _
    exact congrArg (fun t => some (t >>= _)) (asU32Tuple_tuple [ppid, pid, tid] _)
  | call ppid pid tid id =>
    show some (u32Element _ (.number (.posInt ppid.toUInt64)) >>= fun ppid =>
      u32Element _ (.number (.posInt pid.toUInt64)) >>= fun pid =>
      u32Element _ (.number (.posInt tid.toUInt64)) >>= fun tid => _) = _
    simp only [u32Element_toUInt64]
    rfl
  | noAddress => rfl

/-! ## Features -/

/-- What the wire can hold of a number: the integers of the JSON library, and no float that is
    not a number. -/
def NumberValue.OnWire : NumberValue → Prop
  | .int n => -2 ^ 63 ≤ n ∧ n < 2 ^ 64
  | .float v => v.IsFinite

/-- What the wire can hold: an `i64` offset, a legal operand index, a regular expression compiled
    from its text. COM features are expanded before they are rendered. -/
def Feature.OnWire [RegexBackend] : Feature → Prop
  | .number v => v.OnWire
  | .offset n => -2 ^ 63 ≤ n ∧ n < 2 ^ 63
  | .operandNumber index v => index ≤ maxOperandIndex ∧ v.OnWire
  | .operandOffset index n => index ≤ maxOperandIndex ∧ -2 ^ 63 ≤ n ∧ n < 2 ^ 63
  | .string (.regex re) => CompiledRegex.compile re.raw = .ok re
  | .com _ _ => False
  | _ => True

/-- The description entry of an object. -/
def describe : Option String → List (String × Value)
  | none => []
  | some d => [("description", .string d)]

theorem readNumber {v : NumberValue} (h : v.OnWire) :
    ∃ json, (RdNumber.from v).toJson = some json ∧
      ∀ f : RawFeature, ∀ key, get f.rest key = some json → f.numberField key = .ok v := by
  cases v with
  | int n =>
    obtain ⟨hmin, hmax⟩ := h
    refine ⟨.number (.ofInt n), if_pos ⟨hmin, hmax⟩, fun f key hget => ?_⟩
    rw [RawFeature.numberField, RawFeature.field, hget]
    dsimp only [orInvalid, bind, Except.bind]
    rw [Value.asInt_ofInt hmin hmax]
    rfl
  | float v =>
    refine ⟨.number (.float v), congrArg some (if_pos h), fun f key hget => ?_⟩
    rw [RawFeature.numberField, RawFeature.field, hget]
    rfl

theorem readInt {n : Int} (hmin : -2 ^ 63 ≤ n) (hmax : n < 2 ^ 64) :
    ∃ json, Value.ofI128 n = some json ∧
      ∀ f : RawFeature, ∀ key, get f.rest key = some json → f.intField key = .ok n := by
  refine ⟨.number (.ofInt n), if_pos ⟨hmin, hmax⟩, fun f key hget => ?_⟩
  rw [RawFeature.intField, RawFeature.field, hget]
  show orInvalid (Value.number (.ofInt n)).asInt _ = _
  rw [Value.asInt_ofInt hmin hmax]
  rfl

theorem readOffset {n : Int} (hmin : -2 ^ 63 ≤ n) (hmax : n < 2 ^ 63) :
    ∃ json, Value.ofI128 n = some json ∧
      ∀ f : RawFeature, ∀ key, get f.rest key = some json → f.intOffset key = .ok n := by
  obtain ⟨json, hjson, hread⟩ := readInt hmin (by omega)
  refine ⟨json, hjson, fun f key hget => ?_⟩
  rw [RawFeature.intOffset, hread f key hget]
  exact if_pos ⟨hmin, hmax⟩

theorem readIndex {index : Nat} (h : index ≤ maxOperandIndex) :
    ∃ json, Value.ofI128 index = some json ∧
      ∀ f : RawFeature, get f.rest "index" = some json → f.operandIndex = .ok index := by
  have hle : index ≤ 4 := h
  obtain ⟨json, hjson, hread⟩ := readInt (n := index) (by omega) (by omega)
  refine ⟨json, hjson, fun f hget => ?_⟩
  rw [RawFeature.operandIndex, hread f "index" hget]
  show (if _ then _ else _) = _
  rw [if_neg (by omega)]
  rfl

section

variable [DebugJson] [RegexBackend]

/-- The reader sees the tag, the fields and the description that were written. -/
theorem read_tagged {tag : String} {fields : List (String × Value)} {description : Option String}
    (h : ∀ e ∈ fields, e.1 ≠ "type" ∧ e.1 ≠ "description") :
    (RawFeature.ofJson (tagged tag fields description)).map (fun f => f.toCapa) =
      some (RawFeature.mk tag (fields ++ describe description)).toCapaOfKind := by
  have hfields : fields.filter (fun e => decide (e.1 ≠ "type")) = fields :=
    List.filter_eq_self.mpr fun e he => decide_eq_true (h e he).1
  have hdescribe : (describe description).filter (fun e => decide (e.1 ≠ "type")) =
      describe description := by
    cases description <;> rfl
  have hread : RawFeature.ofJson (tagged tag fields description) =
      some ⟨tag, fields ++ describe description⟩ := by
    show some (RawFeature.mk tag ((fields ++ describe description).filter _)) = _
    rw [List.filter_append, hfields, hdescribe]
  have hnone : fields.find? (fun e => decide (e.1 = "description")) = none :=
    List.find?_eq_none.mpr fun e he => by simpa using (h e he).2
  have hcheck : (RawFeature.mk tag (fields ++ describe description)).checkDescription = .ok () := by
    unfold RawFeature.checkDescription Json.get
    rw [List.find?_append, hnone]
    cases description <;> rfl
  rw [hread]
  show some (RawFeature.checkDescription _ >>= fun _ => _) = _
  rw [hcheck]
  rfl

theorem reads {feature : Feature} {description : Option String} {rd : RdFeature} {tag : String}
    {fields : List (String × Value)} (hrd : RdFeature.fromEngine feature description = .ok rd)
    (hjson : rd.toJson = some (tagged tag fields description))
    (hfields : ∀ e ∈ fields, e.1 ≠ "type" ∧ e.1 ≠ "description")
    (hread : (RawFeature.mk tag (fields ++ describe description)).toCapaOfKind = .ok feature) :
    ∃ rd json, RdFeature.fromEngine feature description = .ok rd ∧ rd.toJson = some json ∧
      (RawFeature.ofJson json).map (fun f => f.toCapa) = some (.ok feature) :=
  ⟨rd, _, hrd, hjson, by rw [read_tagged hfields, hread]⟩

theorem readFeature {feature : Feature} (h : feature.OnWire) (description : Option String) :
    ∃ rd json, RdFeature.fromEngine feature description = .ok rd ∧ rd.toJson = some json ∧
      (RawFeature.ofJson json).map (fun f => f.toCapa) = some (.ok feature) := by
  cases feature with
  | string v =>
    cases v with
    | plain v => exact reads rfl rfl (by simp) rfl
    | substring v => exact reads rfl rfl (by simp) rfl
    | regex re =>
      refine reads rfl rfl (by simp) ?_
      show (CompiledRegex.compile re.raw).mapError FreezeError.invalid >>= _ = _
      rw [show CompiledRegex.compile re.raw = .ok re from h]
      rfl
  | bytes v =>
    refine reads rfl rfl (by simp) ?_
    show orInvalid (hexDecode (hexEncode v).toList) _ >>= _ = _
    rw [hexDecode_hexEncode]
    rfl
  | number v =>
    obtain ⟨json, hjson, hread⟩ := readNumber h
    have hobject : (RdFeature.number (.from v) description).toJson =
        some (tagged "number" [("number", json)] description) := by
      show (RdNumber.from v).toJson >>= _ = _
      rw [hjson]
      rfl
    refine reads rfl hobject (by simp) ?_
    show Feature.number <$> RawFeature.numberField _ "number" = _
    rw [hread _ _ rfl]
    rfl
  | offset n =>
    obtain ⟨hmin, hmax⟩ := h
    obtain ⟨json, hjson, hread⟩ := readOffset hmin hmax
    have hobject : (RdFeature.offset n description).toJson =
        some (tagged "offset" [("offset", json)] description) := by
      show Value.ofI128 n >>= _ = _
      rw [hjson]
      rfl
    refine reads rfl hobject (by simp) ?_
    show Feature.offset <$> RawFeature.intOffset _ "offset" = _
    rw [hread _ _ rfl]
    rfl
  | operandNumber index v =>
    obtain ⟨hindex, hv⟩ := h
    obtain ⟨json, hjson, hread⟩ := readNumber hv
    obtain ⟨jsonIndex, hjsonIndex, hreadIndex⟩ := readIndex hindex
    have hobject : (RdFeature.operandNumber index (.from v) description).toJson =
        some (tagged "operand number" [("index", jsonIndex), ("operand_number", json)]
          description) := by
      show (Value.ofI128 index >>= fun index => (RdNumber.from v).toJson >>= _) = _
      rw [hjsonIndex, hjson]
      rfl
    refine reads rfl hobject (by simp) ?_
    show (RawFeature.operandIndex _ >>= fun index =>
      RawFeature.numberField _ "operand_number" >>= _) = _
    rw [hreadIndex _ rfl, hread _ _ rfl]
    rfl
  | operandOffset index n =>
    obtain ⟨hindex, hmin, hmax⟩ := h
    obtain ⟨json, hjson, hread⟩ := readOffset hmin hmax
    obtain ⟨jsonIndex, hjsonIndex, hreadIndex⟩ := readIndex hindex
    have hobject : (RdFeature.operandOffset index n description).toJson =
        some (tagged "operand offset" [("index", jsonIndex), ("operand_offset", json)]
          description) := by
      show (Value.ofI128 index >>= fun index => Value.ofI128 n >>= _) = _
      rw [hjsonIndex, hjson]
      rfl
    refine reads rfl hobject (by simp) ?_
    show (RawFeature.operandIndex _ >>= fun index =>
      RawFeature.intOffset _ "operand_offset" >>= _) = _
    rw [hreadIndex _ rfl, hread _ _ rfl]
    rfl
  | property name access =>
    cases access with
    | none =>
      refine reads rfl rfl (by simp) ?_
      cases description <;> rfl
    | some access =>
      refine reads rfl rfl (by simp) ?_
      cases access <;> rfl
  | com kind name => exact h.elim
  | _ => exact reads rfl rfl (by simp) rfl

/-- Every address, and every feature that the wire can hold, reads back as what was written,
    whatever the description. -/
theorem wire_roundTrip :
    (∀ a : Address,
      (RawAddress.ofJson (RdAddress.from a).toJson).map RawAddress.toCapa = some (.ok a)) ∧
    ∀ feature : Feature, feature.OnWire → ∀ description : Option String,
      ∃ rd json, RdFeature.fromEngine feature description = .ok rd ∧ rd.toJson = some json ∧
        (RawFeature.ofJson json).map (fun f => f.toCapa) = some (.ok feature) :=
  ⟨readAddress, fun _ h description => readFeature h description⟩

end

/-- A debug text that prints nothing, for documents that are accepted. -/
@[reducible] def Json.DebugJson.blank : DebugJson := ⟨fun _ => ""⟩

theorem wire_roundTrip_operandOffset :
    ∃ rd json, RdFeature.fromEngine (.operandOffset 4 (-8)) (some "spill") = .ok rd ∧
      rd.toJson = some json ∧
      (RawFeature.ofJson json).map (fun f => @RawFeature.toCapa f .blank .empty) =
        some (.ok (.operandOffset 4 (-8))) :=
  (@wire_roundTrip .blank .empty).2 (.operandOffset 4 (-8))
    ⟨by decide, by decide, by decide⟩ (some "spill")

/-- The reader refuses a sixth operand, and a NaN is written as `null`. -/
theorem wire_refuses :
    (∃ json, (RdFeature.operandNumber 5 (.int 0) none).toJson = some json ∧
      RdFeature.fromEngine (.operandNumber 5 (.int 0)) none =
        .ok (.operandNumber 5 (.int 0) none) ∧
      (RawFeature.ofJson json).map (fun f => @RawFeature.toCapa f .blank .empty) =
        some (.error (.invalid "operand index out of range: 5"))) ∧
    ∃ json, (RdFeature.number (.float ⟨0x7ff8000000000000⟩) none).toJson = some json ∧
      RdFeature.fromEngine (.number (.float ⟨0x7ff8000000000000⟩)) none =
        .ok (.number (.float ⟨0x7ff8000000000000⟩) none) ∧
      (RawFeature.ofJson json).map (fun f => @RawFeature.toCapa f .blank .empty) =
        some (.error (.invalid "feature number: number must be a number")) :=
  ⟨⟨_, rfl, rfl, rfl⟩, ⟨_, rfl, rfl, rfl⟩⟩

end CapaX
