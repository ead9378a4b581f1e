import CapaX.Api.Meaning
import CapaX.ResultDocument.Written

/-
  A result document that is written and read again is the same document, as long as the numbers in
  its evidence are ones JSON holds: floats that are finite, and integers no wider than 64 bits. An
  integer of a rule may be wider, and an evidence tree may be deeper than a reader follows it;
  `reread` says that nothing else is lost.
-/

namespace CapaX

open Codec Collections Control Json

/-! ## Values -/

namespace Json

theorem survives_bool (b : Bool) : boolFormat.Survives b := rfl

theorem survives_u64 (n : UInt64) : u64Format.Survives n := rfl

/-- How an integer is read, signed and unsigned. -/
theorem ofI128_eq_some {n : Int} {v : Value} :
    Value.ofI128 n = some v ↔ (-2 ^ 63 ≤ n ∧ n < 2 ^ 64) ∧ .number (.ofInt n) = v := by
  unfold Value.ofI128
  split <;> simp_all

theorem toNat_ofNat_toNat {n : Int} (h : 0 ≤ n) (hmax : n < 2 ^ 64) :
    ((UInt64.ofNat n.toNat).toNat : Int) = n := by
  rw [UInt64.toNat_ofNat', Nat.mod_eq_of_lt (by omega), Int.toNat_of_nonneg h]

theorem survives_i64 {n : Int} : i64Format.Survives n ↔ -2 ^ 63 ≤ n ∧ n < 2 ^ 63 := by
  show (Value.ofI128 n).bind Value.asI64 = some n ↔ _
  by_cases hrange : -2 ^ 63 ≤ n ∧ n < 2 ^ 64
  · obtain ⟨hmin, hmax⟩ := hrange
    rw [ofI128_eq_some.mpr ⟨⟨hmin, hmax⟩, rfl⟩]
    show (Number.ofInt n).asI64 = some n ↔ _
    unfold Number.ofInt
    split
    · next hnonneg =>
      have hback := toNat_ofNat_toNat hnonneg hmax
      show (if _ then some ((UInt64.ofNat n.toNat).toNat : Int) else none) = some n ↔ _
      rw [hback]
      split
      · next hsmall => exact iff_of_true rfl ⟨hmin, by omega⟩
      · next hlarge => exact iff_of_false (by simp) fun h => hlarge (by omega)
    · next hneg =>
      refine iff_of_true (congrArg some ?_) ⟨hmin, by omega⟩
      exact Int64.toInt_ofInt_of_le (by omega) (by omega)
  · unfold Value.ofI128
    rw [if_neg hrange]
    exact iff_of_false (by simp) fun h => hrange ⟨h.1, by omega⟩

theorem survives_count {n : Nat} : countFormat.Survives n ↔ n < 2 ^ 64 := by
  unfold Format.Survives countFormat
  dsimp only
  by_cases hrange : n < 2 ^ 64
  · rw [ofI128_eq_some.mpr ⟨⟨by omega, by omega⟩, rfl⟩]
    refine iff_of_true ?_ hrange
    show (Number.ofInt n).asU64.map UInt64.toNat = some n
    unfold Number.ofInt
    rw [if_pos (Int.natCast_nonneg n)]
    show some (UInt64.ofNat n).toNat = some n
    rw [UInt64.toNat_ofNat', Nat.mod_eq_of_lt hrange]
  · unfold Value.ofI128
    rw [if_neg fun h => hrange (by omega)]
    exact iff_of_false (by simp) hrange

theorem survives_pair {α β : Type} {f : Format Value α} {g : Format Value β} {p : α × β} :
    (pairFormat f g).Survives p ↔ f.Survives p.1 ∧ g.Survives p.2 := by
  show ((f.write p.1).bind fun v => (g.write p.2).map fun w => Value.array [v, w]).bind
    (pairFormat f g).read = some p ↔
    (f.write p.1).bind f.read = some p.1 ∧ (g.write p.2).bind g.read = some p.2
  cases f.write p.1 with
  | none => simp
  | some v =>
    cases g.write p.2 with
    | none => simp
    | some w =>
      show (f.read v).bind (fun a => (g.read w).map fun b => (a, b)) = some p ↔
        f.read v = some p.1 ∧ g.read w = some p.2
      cases f.read v with
      | none => simp
      | some a =>
        cases g.read w with
        | none => simp
        | some b => simp [Prod.ext_iff]

/-- A map survives exactly when its values do. -/
theorem survives_map {α : Type} {f : Format Value α} {m : OrdMap String α} :
    (mapFormat f).Survives m ↔ ∀ e ∈ m.entries, f.Survives e.2 := by
  have hentries : (∀ e ∈ m.entries, f.Survives e.2) ↔ ∀ e ∈ m.entries, f.entry.Survives e :=
    forall₂_congr fun _ _ => Format.survives_entry.symm
  rw [hentries, ← Format.survives_items]
  show ((m.entries.mapM f.entry.write).map Value.object).bind (mapFormat f).read = some m ↔ _
  cases hw : m.entries.mapM f.entry.write with
  | none => exact iff_of_false (by simp) (by simp)
  | some es =>
    show (es.mapM f.entry.read).map .ofList = some m ↔ es.mapM f.entry.read = some m.entries
    constructor
    · intro h
      obtain ⟨l, hl, hm⟩ := Option.map_eq_some_iff.mp h
      have hkeys : l.map (·.1) = m.entries.map (·.1) :=
        (Format.keys_of_mapM hl).trans (Format.keys_of_mapM hw)
      have hsorted : l.Pairwise fun a b => a.1 < b.1 := by
        rw [← List.pairwise_map (R := (· < ·)), hkeys, List.pairwise_map]
        exact m.sorted
      rw [hl, ← hm, show OrdMap.ofList l = ⟨l, hsorted⟩ from OrdMap.ofList_entries ⟨l, hsorted⟩]
    · intro h
      rw [h]
      exact congrArg some m.ofList_entries

end Json

/-! ## Addresses and features -/

theorem AddressValue.survives (v : AddressValue) : AddressValue.json.Survives v := by
  show AddressValue.ofJson v.toJson = some v
  cases v with
  | int v => rfl
  | tuple vs =>
    have hread : (vs.map fun v => Value.number (.posInt v)).mapM Value.asU64 = some vs := by
      induction vs with
      | nil => rfl
      | cons v vs ih =>
        rw [List.map_cons, List.mapM_cons, ih]
        rfl
    show ((vs.map fun v => Value.number (.posInt v)).mapM Value.asU64).map AddressValue.tuple = _
    rw [hread]
    rfl

/-- Strings are no `null`. -/
theorem survives_optionalText {key : String} (o : Option String) :
    (Fields.optional key (Format.text : Format Value String)).Survives o :=
  (Fields.survives_optional fun a v h => by
    obtain rfl := Option.some.inj h
    rfl).mpr fun s _ => Format.survives_text s

theorem survives_texts (texts : List String) :
    (Format.text : Format Value String).list.Survives texts :=
  Format.survives_list.mpr fun s _ => Format.survives_text s

/-- The wire shape of an address is that of a record of its fields. -/
theorem RdAddress.toJson_eq (a : RdAddress) :
    some a.toJson = (Format.record RdAddress.fields).write a := by
  obtain ⟨kind, value⟩ := a
  cases value with
  | none => rfl
  | some v => rfl

theorem RdAddress.survives (a : RdAddress) : RdAddress.json.Survives a := by
  show (some a.toJson).bind _ = some a
  rw [RdAddress.toJson_eq]
  refine Format.survives_record.mpr (Fields.survives_via.mpr (Fields.survives_both.mpr
    ⟨Fields.survives_required.mpr (Format.survives_text _), ?_⟩))
  refine (Fields.survives_optional fun v json h => ?_).mpr fun v _ => AddressValue.survives v
  obtain rfl := Option.some.inj h
  cases v with
  | int v => rfl
  | tuple vs => rfl

def RdNumber.Fits : RdNumber → Prop
  | .int n => -2 ^ 63 ≤ n ∧ n < 2 ^ 64
  | .float v => v.IsFinite

theorem RdNumber.survives_iff {n : RdNumber} : RdNumber.json.Survives n ↔ n.Fits := by
  cases n with
  | int n =>
    show (Value.ofI128 n).bind RdNumber.ofJson = some (.int n) ↔ -2 ^ 63 ≤ n ∧ n < 2 ^ 64
    by_cases hrange : -2 ^ 63 ≤ n ∧ n < 2 ^ 64
    · rw [ofI128_eq_some.mpr ⟨hrange, rfl⟩]
      refine iff_of_true ?_ hrange
      show RdNumber.ofJson (.number (Number.ofInt n)) = some (.int n)
      unfold Number.ofInt
      split
      · next hnonneg =>
        exact congrArg (fun n => some (RdNumber.int n)) (toNat_ofNat_toNat hnonneg hrange.2)
      · next hneg =>
        exact congrArg (fun n => some (RdNumber.int n))
          (Int64.toInt_ofInt_of_le (by omega) (by omega))
    · unfold Value.ofI128
      rw [if_neg hrange]
      exact iff_of_false (by simp) hrange
  | float v =>
    show RdNumber.ofJson (.ofF64 v) = some (.float v) ↔ v.IsFinite
    unfold Value.ofF64
    split
    · next h => exact iff_of_true rfl h
    · next h => exact iff_of_false (by simp [RdNumber.ofJson]) h

theorem Rd.survives_described {α : Type} {key : String} {f : Format Value α}
    {h : key ≠ "description"} {p : α × Option String} :
    (described key f h).Survives p ↔ f.Survives p.1 :=
  Fields.survives_both.trans
    ((and_congr_left fun _ => Fields.survives_required).trans
      (and_iff_left (survives_optionalText p.2)))

theorem Rd.survives_operandFields {α : Type} {key : String} {f : Format Value α}
    {h : key ≠ "description"} {hindex : "index" ≠ key} {p : Int × α × Option String} :
    (operandFields key f h hindex).Survives p ↔
      (-2 ^ 63 ≤ p.1 ∧ p.1 < 2 ^ 63) ∧ f.Survives p.2.1 :=
  Fields.survives_both.trans
    (and_congr (Fields.survives_required.trans survives_i64) Rd.survives_described)

namespace RdFeature

/-- The numbers of the feature are ones JSON holds. -/
def Fits : RdFeature → Prop
  | .number n _ => n.Fits
  | .offset n _ => -2 ^ 63 ≤ n ∧ n < 2 ^ 63
  | .operandNumber index n _ => (-2 ^ 63 ≤ index ∧ index < 2 ^ 63) ∧ n.Fits
  | .operandOffset index n _ => (-2 ^ 63 ≤ index ∧ index < 2 ^ 63) ∧ -2 ^ 63 ≤ n ∧ n < 2 ^ 63
  | _ => True

variable {α : Type} {f : Format Value α} {tag key : String}

/-- Both have the value under its key, and the description. -/
theorem writeTagged_described {h : key ≠ "description"} (v : α) (d : Option String) :
    writeTagged "type" tag (Rd.described key f h) (v, d) =
      (f.write v).map fun w => tagged tag [(key, w)] d := by
  show ((((f.write v).map fun w => [(key, w)]).bind fun es =>
    (Rd.description.write d).map fun es' => es ++ es').map _) = _
  cases f.write v with
  | none => rfl
  | some w => cases d <;> rfl

theorem writeTagged_operand {h : key ≠ "description"} {i : "index" ≠ key} (index : Int) (v : α)
    (d : Option String) :
    writeTagged "type" tag (Rd.operandFields key f h i) (index, v, d) =
      (Value.ofI128 index).bind fun i =>
        (f.write v).bind fun w => some (tagged tag [("index", i), (key, w)] d) := by
  show (((((Value.ofI128 index).map fun i => [("index", i)]).bind fun es =>
    ((((f.write v).map fun w => [(key, w)]).bind fun es =>
      (Rd.description.write d).map fun es' => es ++ es')).map fun es' => es ++ es').map _)) = _
  cases Value.ofI128 index with
  | none => rfl
  | some i =>
    cases f.write v with
    | none => rfl
    | some w => cases d <;> rfl

theorem survives_described (f : Format Value α) (make : α → Option String → RdFeature)
    (hmake : Function.Injective2 make) (hkey : key ≠ "description") (htype : "type" ≠ key) {v : α}
    {d : Option String}
    (hwrite : (make v d).toJson = (f.write v).map fun w => tagged tag [(key, w)] d)
    (hread : ∀ entries, ofName tag entries =
      ((Rd.described key f hkey).read entries).map fun p => make p.1 p.2) :
    RdFeature.json.Survives (make v d) ↔ f.Survives v := by
  show (make v d).toJson.bind (readTagged "type" ofName) = _ ↔ _
  rw [hwrite, ← writeTagged_described (h := hkey)]
  refine (survives_tagged_iff (fun p : α × Option String => make p.1 p.2) ?_
    (fun entries _ => hread entries) hmake.uncurry).trans Rd.survives_described
  show "type" ∉ [key, "description"]
  simp [htype]

theorem survives_operand (f : Format Value α) (make : Int → α → Option String → RdFeature)
    (hmake : ∀ ⦃i v d i' v' d'⦄, make i v d = make i' v' d' → i = i' ∧ v = v' ∧ d = d')
    (hkey : key ≠ "description") (hindex : "index" ≠ key) (htype : "type" ≠ key) {i : Int} {v : α}
    {d : Option String}
    (hwrite : (make i v d).toJson = (Value.ofI128 i).bind fun i =>
      (f.write v).bind fun w => some (tagged tag [("index", i), (key, w)] d))
    (hread : ∀ entries, ofName tag entries =
      ((Rd.operandFields key f hkey hindex).read entries).map fun p => make p.1 p.2.1 p.2.2) :
    RdFeature.json.Survives (make i v d) ↔ (-2 ^ 63 ≤ i ∧ i < 2 ^ 63) ∧ f.Survives v := by
  show (make i v d).toJson.bind (readTagged "type" ofName) = _ ↔ _
  rw [hwrite, ← writeTagged_operand (h := hkey) (i := hindex)]
  refine (survives_tagged_iff (fun p : Int × α × Option String => make p.1 p.2.1 p.2.2) ?_
    (fun entries _ => hread entries) fun p q h => ?_).trans Rd.survives_operandFields
  · show "type" ∉ ["index", key, "description"]
    simp [htype]
  · obtain ⟨hi, hv, hd⟩ := hmake h
    exact Prod.ext hi (Prod.ext hv hd)

/-- The features that are a name. -/
theorem survives_name (make : String → Option String → RdFeature) (hkey : key ≠ "description")
    (htype : "type" ≠ key) {s : String} {d : Option String}
    (hwrite : (make s d).toJson = some (tagged tag [(key, .string s)] d))
    (hread : ∀ entries, ofName tag entries =
      ((Rd.labelled key hkey).read entries).map fun p => make p.1 p.2) :
    RdFeature.json.Survives (make s d) := by
  have hwritten : (make s d).toJson = writeTagged "type" tag (Rd.labelled key hkey) (s, d) :=
    hwrite.trans (writeTagged_described (f := .text) (h := hkey) s d).symm
  show (make s d).toJson.bind (readTagged "type" ofName) = _
  rw [hwritten]
  refine survives_tagged (fun p : String × Option String => make p.1 p.2) ?_
    (fun entries _ => hread entries) (Rd.survives_described.mpr (Format.survives_text s))
  show "type" ∉ [key, "description"]
  simp [htype]

/-- A feature is read as it was written exactly when its numbers fit. -/
theorem survives_iff {f : RdFeature} : RdFeature.json.Survives f ↔ f.Fits := by
  cases f with
  | os s d =>
    exact iff_of_true (survives_name .os (by decide) (by decide) rfl fun _ => rfl) trivial
  | arch s d =>
    exact iff_of_true (survives_name .arch (by decide) (by decide) rfl fun _ => rfl) trivial
  | format s d =>
    exact iff_of_true (survives_name .format (by decide) (by decide) rfl fun _ => rfl) trivial
  | match_ s d =>
    exact iff_of_true (survives_name .match_ (by decide) (by decide) rfl fun _ => rfl) trivial
  | characteristic s d =>
    exact iff_of_true
      (survives_name .characteristic (by decide) (by decide) rfl fun _ => rfl) trivial
  | export_ s d =>
    exact iff_of_true (survives_name .export_ (by decide) (by decide) rfl fun _ => rfl) trivial
  | import_ s d =>
    exact iff_of_true (survives_name .import_ (by decide) (by decide) rfl fun _ => rfl) trivial
  | section_ s d =>
    exact iff_of_true (survives_name .section_ (by decide) (by decide) rfl fun _ => rfl) trivial
  | functionName s d =>
    exact iff_of_true (survives_name .functionName (by decide) (by decide) rfl fun _ => rfl) trivial
  | substring s d =>
    exact iff_of_true (survives_name .substring (by decide) (by decide) rfl fun _ => rfl) trivial
  | regex s d =>
    exact iff_of_true (survives_name .regex (by decide) (by decide) rfl fun _ => rfl) trivial
  | string s d =>
    exact iff_of_true (survives_name .string (by decide) (by decide) rfl fun _ => rfl) trivial
  | class_ s d =>
    exact iff_of_true (survives_name .class_ (by decide) (by decide) rfl fun _ => rfl) trivial
  | namespace_ s d =>
    exact iff_of_true (survives_name .namespace_ (by decide) (by decide) rfl fun _ => rfl) trivial
  | basicBlock d =>
    refine iff_of_true ?_ trivial
    show (RdFeature.basicBlock d).toJson.bind (readTagged "type" ofName) = _
    rw [show (RdFeature.basicBlock d).toJson = writeTagged "type" "basic block" Rd.description d by
      cases d <;> rfl]
    exact survives_tagged RdFeature.basicBlock (by decide) (fun _ _ => rfl)
      (survives_optionalText d)
  | api s d =>
    exact iff_of_true (survives_name .api (by decide) (by decide) rfl fun _ => rfl) trivial
  | property access name d =>
    refine iff_of_true ?_ trivial
    show (RdFeature.property access name d).toJson.bind (readTagged "type" ofName) = _
    rw [show (RdFeature.property access name d).toJson =
      writeTagged "type" "property" Rd.propertyFields (access, name, d) by
        cases access <;> cases d <;> rfl]
    exact survives_tagged (fun p : Option String × String × Option String =>
        RdFeature.property p.1 p.2.1 p.2.2) (by decide) (fun _ _ => rfl)
      (Fields.survives_both.mpr ⟨survives_optionalText access,
        Rd.survives_described.mpr (Format.survives_text name)⟩)
  | number n d =>
    exact (survives_described RdNumber.json .number (fun _ _ _ _ => RdFeature.number.inj)
      (by decide) (by decide) Option.map_eq_bind.symm fun _ => rfl).trans RdNumber.survives_iff
  | bytes s d =>
    exact iff_of_true (survives_name .bytes (by decide) (by decide) rfl fun _ => rfl) trivial
  | offset n d =>
    exact (survives_described i64Format .offset (fun _ _ _ _ => RdFeature.offset.inj)
      (by decide) (by decide) Option.map_eq_bind.symm fun _ => rfl).trans survives_i64
  | mnemonic s d =>
    exact iff_of_true (survives_name .mnemonic (by decide) (by decide) rfl fun _ => rfl) trivial
  | operandNumber index n d =>
    exact (survives_operand RdNumber.json .operandNumber
      (fun _ _ _ _ _ _ => RdFeature.operandNumber.inj) (by decide) (by decide) (by decide)
      rfl fun _ => rfl).trans (and_congr_right fun _ => RdNumber.survives_iff)
  | operandOffset index n d =>
    exact (survives_operand i64Format .operandOffset
      (fun _ _ _ _ _ _ => RdFeature.operandOffset.inj) (by decide) (by decide) (by decide)
      rfl fun _ => rfl).trans (and_congr_right fun _ => survives_i64)

end RdFeature

/-! ## Evidence -/

namespace Rd

def Statement.Fits : Statement → Prop
  | .range _ _ _ child => child.Fits
  | _ => True

def Node.Fits : Node → Prop
  | .statement s => s.Fits
  | .feature f => f.Fits

theorem survives_rangeFields {p : Option String × UInt64 × UInt64 × RdFeature} :
    rangeFields.Survives p ↔ p.2.2.2.Fits := by
  refine Fields.survives_both.trans ((and_iff_right (survives_optionalText _)).trans ?_)
  refine Fields.survives_both.trans ((and_iff_right
    (Fields.survives_required.mpr (survives_u64 _))).trans ?_)
  refine Fields.survives_both.trans ((and_iff_right
    (Fields.survives_required.mpr (survives_u64 _))).trans ?_)
  exact Fields.survives_required.trans RdFeature.survives_iff

theorem Statement.survives_iff {s : Statement} : Statement.json.Survives s ↔ s.Fits := by
  cases s with
  | and d =>
    exact iff_of_true (survives_tagged Statement.and (by decide) (fun _ _ => rfl)
      (survives_optionalText d)) trivial
  | or d =>
    exact iff_of_true (survives_tagged Statement.or (by decide) (fun _ _ => rfl)
      (survives_optionalText d)) trivial
  | not d =>
    exact iff_of_true (survives_tagged Statement.not (by decide) (fun _ _ => rfl)
      (survives_optionalText d)) trivial
  | optional d =>
    exact iff_of_true (survives_tagged Statement.optional (by decide) (fun _ _ => rfl)
      (survives_optionalText d)) trivial
  | some d count =>
    refine iff_of_true ?_ trivial
    exact survives_tagged (fun p : Option String × UInt64 => Statement.some p.1 p.2) (by decide)
      (fun _ _ => rfl) (Fields.survives_both.mpr
        ⟨survives_optionalText d, Fields.survives_required.mpr (survives_u64 count)⟩)
  | range d min max child =>
    refine (survives_tagged_iff (fun p : Option String × UInt64 × UInt64 × RdFeature =>
      Statement.range p.1 p.2.1 p.2.2.1 p.2.2.2) (a := (d, min, max, child)) (by decide)
      (fun _ _ => rfl) fun p q h => ?_).trans survives_rangeFields
    obtain ⟨hd, hmin, hmax, hchild⟩ := Statement.range.inj h
    exact Prod.ext hd (Prod.ext hmin (Prod.ext hmax hchild))
  | subscope d scope =>
    refine iff_of_true ?_ trivial
    exact survives_tagged (fun p : Option String × String => Statement.subscope p.1 p.2)
      (by decide) (fun _ _ => rfl) (Fields.survives_both.mpr
        ⟨survives_optionalText d, Fields.survives_required.mpr (Format.survives_text scope)⟩)

theorem Node.survives_iff {n : Node} : Node.json.Survives n ↔ n.Fits := by
  cases n with
  | statement s =>
    exact (survives_tagged_iff Node.statement (by decide) (fun _ _ => rfl)
      fun _ _ => Node.statement.inj).trans
        (Fields.survives_required.trans Statement.survives_iff)
  | feature f =>
    exact (survives_tagged_iff Node.feature (by decide) (fun _ _ => rfl)
      fun _ _ => Node.feature.inj).trans (Fields.survives_required.trans RdFeature.survives_iff)

namespace Match

/-- The evidence is no deeper than that. -/
def Below : Nat → Match → Prop
  | 0, _ => False
  | depth + 1, m => ∀ c ∈ m.children, Below depth c

/-- All numbers in the evidence fit. -/
inductive Fits : Match → Prop
  | intro {m : Match} (hnode : m.node.Fits) (hchildren : ∀ c ∈ m.children, Fits c) : Fits m

theorem fits_iff {m : Match} : m.Fits ↔ m.node.Fits ∧ ∀ c ∈ m.children, c.Fits := by
  constructor
  · intro h
    cases h with
    | intro hnode hchildren => exact ⟨hnode, hchildren⟩
  · intro ⟨hnode, hchildren⟩
    exact .intro hnode hchildren

/-- A match is written as the record of its fields. -/
theorem toJson_eq (m : Match) (read : Value → Option Match) :
    m.toJson = (Format.record (fields ⟨toJson, read⟩)).write m := by
  obtain ⟨success, node, children, locations, captures⟩ := m
  rw [toJson]
  unfold fields
  generalize RdAddress.json.list = addresses
  simp only [Format.record, Fields.via, Fields.both, Fields.required, boolFormat,
    Format.list, Node.json, Equiv.coe_fn_symm_mk, Option.map_some, Option.bind_some]
  cases node.toJson with
  | none => rfl
  | some node =>
    cases children.mapM toJson with
    | none => rfl
    | some children =>
      cases addresses.write locations with
      | none => rfl
      | some locations =>
        cases (mapFormat addresses).write captures with
        | none => rfl
        | some captures => rfl

theorem survives_fields {child : Format Value Match} {m : Match} :
    (fields child).Survives m ↔ m.node.Fits ∧ ∀ c ∈ m.children, child.Survives c := by
  refine Fields.survives_via.trans (Fields.survives_both.trans
    ((and_iff_right (Fields.survives_required.mpr (survives_bool _))).trans
      (Fields.survives_both.trans (and_congr (Fields.survives_required.trans Node.survives_iff)
        (Fields.survives_both.trans ?_)))))
  refine (and_iff_left (Fields.survives_both.mpr ⟨?_, ?_⟩)).trans
    (Fields.survives_required.trans Format.survives_list)
  · exact Fields.survives_required.mpr (Format.survives_list.mpr fun a _ => RdAddress.survives a)
  · exact Fields.survives_required.mpr (survives_map.mpr fun e _ =>
      Format.survives_list.mpr fun a _ => RdAddress.survives a)

/-- Evidence is read as it was written exactly when its numbers fit and the reader gets to its
    end. -/
theorem survives_iff {depth : Nat} {m : Match} :
    (⟨toJson, ofJson depth⟩ : Format Value Match).Survives m ↔ m.Below depth ∧ m.Fits := by
  induction depth generalizing m with
  | zero =>
    refine iff_of_false (fun h => ?_) fun h => h.1
    obtain ⟨v, _, hv⟩ := Option.bind_eq_some_iff.mp h
    exact (Option.some_ne_none m hv.symm).elim
  | succ depth ih =>
    have hrecord : (⟨toJson, ofJson (depth + 1)⟩ : Format Value Match).Survives m ↔
        (Format.record (fields ⟨toJson, ofJson depth⟩)).Survives m := by
      show m.toJson.bind (ofJson (depth + 1)) = some m ↔ _
      rw [toJson_eq m (ofJson depth)]
      exact Iff.rfl
    rw [hrecord, Format.survives_record, survives_fields, fits_iff, and_left_comm]
    refine and_congr_right fun _ => ?_
    constructor
    · intro h
      exact ⟨fun c hc => (ih.mp (h c hc)).1, fun c hc => (ih.mp (h c hc)).2⟩
    · intro ⟨hbelow, hfits⟩ c hc
      exact ih.mpr ⟨hbelow c hc, hfits c hc⟩

end Match

end Rd

/-! ## Rules and metadata -/

namespace ResultDocument

theorem RdScopes.survives (s : RdScopes) : RdScopes.json.Survives s :=
  Format.survives_record.mpr (Fields.survives_via.mpr (Fields.survives_both.mpr
    ⟨survives_optionalText _, survives_optionalText _⟩))

theorem survives_requiredText {key : String} (s : String) :
    (Fields.required key (Format.text : Format Value String)).Survives s :=
  Fields.survives_required.mpr (Format.survives_text s)

theorem survives_requiredTexts {key : String} (texts : List String) :
    (Fields.required key (Format.text : Format Value String).list).Survives texts :=
  Fields.survives_required.mpr (survives_texts texts)

theorem survives_specFields {first second third : String}
    {h : ["parts", first, second, third, "id"].Nodup}
    (p : List String × String × String × String × String) :
    (specFields first second third h).Survives p :=
  Fields.survives_both.mpr ⟨survives_requiredTexts _, Fields.survives_both.mpr
    ⟨survives_requiredText _, Fields.survives_both.mpr ⟨survives_requiredText _,
      Fields.survives_both.mpr ⟨survives_requiredText _, survives_requiredText _⟩⟩⟩⟩

theorem AttackSpec.survives (s : AttackSpec) : AttackSpec.json.Survives s :=
  Format.survives_record.mpr (Fields.survives_via.mpr (survives_specFields _))

theorem MBCSpec.survives (s : MBCSpec) : MBCSpec.json.Survives s :=
  Format.survives_record.mpr (Fields.survives_via.mpr (survives_specFields _))

theorem MaecMetadata.survives (m : MaecMetadata) : MaecMetadata.json.Survives m :=
  Format.survives_record.mpr (Fields.survives_via.mpr (Fields.survives_both.mpr
    ⟨survives_optionalText _, Fields.survives_both.mpr ⟨survives_optionalText _,
      Fields.survives_both.mpr ⟨survives_optionalText _, Fields.survives_both.mpr
        ⟨survives_optionalText _, survives_optionalText _⟩⟩⟩⟩))

theorem RuleMetadata.survives (r : RuleMetadata) : RuleMetadata.json.Survives r := by
  refine Format.survives_record.mpr (Fields.survives_via.mpr ?_)
  refine Fields.survives_both.mpr ⟨survives_requiredText _, ?_⟩
  refine Fields.survives_both.mpr ⟨survives_optionalText _, ?_⟩
  refine Fields.survives_both.mpr ⟨survives_requiredTexts _, ?_⟩
  refine Fields.survives_both.mpr ⟨Fields.survives_required.mpr (RdScopes.survives _), ?_⟩
  refine Fields.survives_both.mpr ⟨Fields.survives_required.mpr
    (Format.survives_list.mpr fun s _ => AttackSpec.survives s), ?_⟩
  refine Fields.survives_both.mpr ⟨Fields.survives_required.mpr
    (Format.survives_list.mpr fun s _ => MBCSpec.survives s), ?_⟩
  refine Fields.survives_both.mpr ⟨survives_requiredTexts _, ?_⟩
  refine Fields.survives_both.mpr ⟨survives_requiredTexts _, ?_⟩
  refine Fields.survives_both.mpr ⟨survives_requiredText _, ?_⟩
  refine Fields.survives_both.mpr ⟨Fields.survives_required.mpr (survives_bool _), ?_⟩
  exact Fields.survives_both.mpr ⟨Fields.survives_required.mpr (survives_bool _),
    Fields.survives_required.mpr (MaecMetadata.survives _)⟩

theorem survives_address {key : String} (a : RdAddress) :
    (Fields.required key RdAddress.json).Survives a :=
  Fields.survives_required.mpr (RdAddress.survives a)

theorem RdSample.survives (s : RdSample) : RdSample.json.Survives s :=
  Format.survives_record.mpr (Fields.survives_via.mpr (Fields.survives_both.mpr
    ⟨survives_requiredText _, Fields.survives_both.mpr ⟨survives_requiredText _,
      Fields.survives_both.mpr ⟨survives_requiredText _, survives_requiredText _⟩⟩⟩))

theorem FunctionLayout.survives (l : FunctionLayout) : FunctionLayout.json.Survives l := by
  refine Format.survives_record.mpr (Fields.survives_via.mpr (Fields.survives_both.mpr
    ⟨survives_address _, Fields.survives_required.mpr (Format.survives_list.mpr fun b _ => ?_)⟩))
  exact Format.survives_record.mpr (Fields.survives_via.mpr (survives_address _))

theorem StaticLayout.survives (l : StaticLayout) : StaticLayout.json.Survives l :=
  Format.survives_record.mpr (Fields.survives_via.mpr (Fields.survives_required.mpr
    (Format.survives_list.mpr fun f _ => FunctionLayout.survives f)))

theorem ThreadLayout.survives (l : ThreadLayout) : ThreadLayout.json.Survives l := by
  refine Format.survives_record.mpr (Fields.survives_via.mpr (Fields.survives_both.mpr
    ⟨survives_address _, Fields.survives_required.mpr (Format.survives_list.mpr fun c _ => ?_)⟩))
  exact Format.survives_record.mpr (Fields.survives_via.mpr
    (Fields.survives_both.mpr ⟨survives_address _, survives_requiredText _⟩))

theorem DynamicLayout.survives (l : DynamicLayout) : DynamicLayout.json.Survives l := by
  refine Format.survives_record.mpr (Fields.survives_via.mpr (Fields.survives_required.mpr
    (Format.survives_list.mpr fun p _ => ?_)))
  exact Format.survives_record.mpr (Fields.survives_via.mpr (Fields.survives_both.mpr
    ⟨survives_address _, Fields.survives_both.mpr ⟨survives_requiredText _,
      Fields.survives_required.mpr (Format.survives_list.mpr fun t _ => ThreadLayout.survives t)⟩⟩))

/-- The counts are 64 bits wide. -/
def StaticFeatureCounts.Fits (c : StaticFeatureCounts) : Prop :=
  c.file < 2 ^ 64 ∧ ∀ f ∈ c.functions, f.count < 2 ^ 64

@[inherit_doc StaticFeatureCounts.Fits]
def DynamicFeatureCounts.Fits (c : DynamicFeatureCounts) : Prop :=
  c.file < 2 ^ 64 ∧ ∀ p ∈ c.processes, p.count < 2 ^ 64

theorem StaticFeatureCounts.survives_iff {c : StaticFeatureCounts} :
    StaticFeatureCounts.json.Survives c ↔ c.Fits := by
  refine Format.survives_record.trans (Fields.survives_via.trans (Fields.survives_both.trans
    (and_congr (Fields.survives_required.trans survives_count)
      (Fields.survives_required.trans (Format.survives_list.trans ?_)))))
  exact forall₂_congr fun f _ => Format.survives_record.trans (Fields.survives_via.trans
    (Fields.survives_both.trans ((and_iff_right (survives_address _)).trans
      (Fields.survives_required.trans survives_count))))

theorem DynamicFeatureCounts.survives_iff {c : DynamicFeatureCounts} :
    DynamicFeatureCounts.json.Survives c ↔ c.Fits := by
  refine Format.survives_record.trans (Fields.survives_via.trans (Fields.survives_both.trans
    (and_congr (Fields.survives_required.trans survives_count)
      (Fields.survives_required.trans (Format.survives_list.trans ?_)))))
  exact forall₂_congr fun p _ => Format.survives_record.trans (Fields.survives_via.trans
    (Fields.survives_both.trans ((and_iff_right (survives_address _)).trans
      (Fields.survives_required.trans survives_count))))

theorem StaticAnalysis.survives_iff {a : StaticAnalysis} :
    StaticAnalysis.json.Survives a ↔ a.featureCounts.Fits := by
  refine Format.survives_record.trans (Fields.survives_via.trans ?_)
  refine Fields.survives_both.trans ((and_iff_right (survives_requiredText _)).trans ?_)
  refine Fields.survives_both.trans ((and_iff_right (survives_requiredText _)).trans ?_)
  refine Fields.survives_both.trans ((and_iff_right (survives_requiredText _)).trans ?_)
  refine Fields.survives_both.trans ((and_iff_right (survives_requiredText _)).trans ?_)
  refine Fields.survives_both.trans ((and_iff_right (survives_requiredTexts _)).trans ?_)
  refine Fields.survives_both.trans ((and_iff_right (survives_address _)).trans ?_)
  refine Fields.survives_both.trans ((and_iff_right
    (Fields.survives_required.mpr (StaticLayout.survives _))).trans ?_)
  refine Fields.survives_both.trans ((and_iff_left
    (Fields.survives_required.mpr (Format.survives_list.mpr fun l _ => ?_))).trans
    (Fields.survives_required.trans StaticFeatureCounts.survives_iff))
  exact Format.survives_record.mpr (Fields.survives_via.mpr
    (Fields.survives_both.mpr ⟨survives_address _, survives_requiredText _⟩))

theorem DynamicAnalysis.survives_iff {a : DynamicAnalysis} :
    DynamicAnalysis.json.Survives a ↔ a.featureCounts.Fits := by
  refine Format.survives_record.trans (Fields.survives_via.trans ?_)
  refine Fields.survives_both.trans ((and_iff_right (survives_requiredText _)).trans ?_)
  refine Fields.survives_both.trans ((and_iff_right (survives_requiredText _)).trans ?_)
  refine Fields.survives_both.trans ((and_iff_right (survives_requiredText _)).trans ?_)
  refine Fields.survives_both.trans ((and_iff_right (survives_requiredText _)).trans ?_)
  refine Fields.survives_both.trans ((and_iff_right (survives_requiredTexts _)).trans ?_)
  exact Fields.survives_both.trans ((and_iff_right
    (Fields.survives_required.mpr (DynamicLayout.survives _))).trans
    (Fields.survives_required.trans DynamicFeatureCounts.survives_iff))

namespace Metadata

def Fits : Metadata → Prop
  | .static_ _ _ _ _ analysis => analysis.featureCounts.Fits
  | .dynamic _ _ _ _ analysis => analysis.featureCounts.Fits

theorem survives_fields {α : Type} {analysis : Format Value α}
    {p : String × String × Option (List String) × RdSample × α} :
    (fields analysis).Survives p ↔ analysis.Survives p.2.2.2.2 := by
  refine Fields.survives_both.trans ((and_iff_right (survives_requiredText _)).trans ?_)
  refine Fields.survives_both.trans ((and_iff_right (survives_requiredText _)).trans ?_)
  refine Fields.survives_both.trans ((and_iff_right ?_).trans ?_)
  · refine (Fields.survives_optional fun texts v h => ?_).mpr fun texts _ => survives_texts texts
    obtain ⟨vs, _, rfl⟩ := Option.map_eq_some_iff.mp h
    rfl
  · exact Fields.survives_both.trans ((and_iff_right
      (Fields.survives_required.mpr (RdSample.survives _))).trans Fields.survives_required)

/-- What a variant writes are fields it has. -/
theorem read_written {α : Type} {analysis : Format Value α}
    {p : String × String × Option (List String) × RdSample × α} {entries : List (String × Value)}
    (h : (fields analysis).write p = some entries) :
    (Format.record (fields analysis)).read (.object entries) = (fields analysis).read entries :=
  if_pos ((fields analysis).keys_of_write h)

theorem survives_iff {m : Metadata} : Metadata.json.Survives m ↔ m.Fits := by
  cases m with
  | static_ timestamp version argv sample analysis =>
    refine (survives_tagged_iff
      (fun p : String × String × Option (List String) × RdSample × StaticAnalysis =>
        Metadata.static_ p.1 p.2.1 p.2.2.1 p.2.2.2.1 p.2.2.2.2)
      (a := (timestamp, version, argv, sample, analysis)) ?_ (fun entries h => ?_)
      fun p q h => ?_).trans (survives_fields.trans StaticAnalysis.survives_iff)
    · show "flavor" ∉ ["timestamp", "version", "argv", "sample", "analysis"]
      decide
    · exact congrArg (Option.map _) (read_written h)
    · obtain ⟨ht, hv, ha, hs, han⟩ := Metadata.static_.inj h
      exact Prod.ext ht (Prod.ext hv (Prod.ext ha (Prod.ext hs han)))
  | dynamic timestamp version argv sample analysis =>
    refine (survives_tagged_iff
      (fun p : String × String × Option (List String) × RdSample × DynamicAnalysis =>
        Metadata.dynamic p.1 p.2.1 p.2.2.1 p.2.2.2.1 p.2.2.2.2)
      (a := (timestamp, version, argv, sample, analysis)) ?_ (fun entries h => ?_)
      fun p q h => ?_).trans (survives_fields.trans DynamicAnalysis.survives_iff)
    · show "flavor" ∉ ["timestamp", "version", "argv", "sample", "analysis"]
      decide
    · exact congrArg (Option.map _) (read_written h)
    · obtain ⟨ht, hv, ha, hs, han⟩ := Metadata.dynamic.inj h
      exact Prod.ext ht (Prod.ext hv (Prod.ext ha (Prod.ext hs han)))

end Metadata

end ResultDocument

/-! ## Documents -/

namespace Rd

/-- A rule survives exactly when the evidence of its matches does. -/
theorem RuleMatches.survives_fields {evidence : Format Value Match} {r : RuleMatches} :
    (RuleMatches.fields evidence).Survives r ↔ ∀ m ∈ r.matches_, evidence.Survives m.2 := by
  refine Fields.survives_via.trans (Fields.survives_both.trans
    ((and_iff_right (Fields.survives_required.mpr (ResultDocument.RuleMetadata.survives _))).trans
      (Fields.survives_both.trans ((and_iff_right (ResultDocument.survives_requiredText _)).trans
        (Fields.survives_required.trans (Format.survives_list.trans ?_))))))
  exact forall₂_congr fun m _ => survives_pair.trans (and_iff_right (RdAddress.survives _))

namespace ResultDocument

/-- The counts and the numbers in the evidence fit. -/
def Fits (d : ResultDocument) : Prop :=
  d.meta.Fits ∧ ∀ e ∈ d.rules.entries, ∀ m ∈ e.2.matches_, m.2.Fits

/-- No evidence is deeper than that. -/
def Below (depth : Nat) (d : ResultDocument) : Prop :=
  ∀ e ∈ d.rules.entries, ∀ m ∈ e.2.matches_, m.2.Below depth

/-- A document is read as it was written exactly when its numbers fit and the reader gets to the
    end of the evidence. -/
theorem survives_iff {depth : Nat} {d : ResultDocument} :
    (json depth).Survives d ↔ d.Below depth ∧ d.Fits := by
  have hrules : ∀ r : RuleMatches,
      (Format.record (RuleMatches.fields ⟨Match.toJson, Match.ofJson depth⟩)).Survives r ↔
        ∀ m ∈ r.matches_, m.2.Below depth ∧ m.2.Fits := fun r =>
    Format.survives_record.trans
      (RuleMatches.survives_fields.trans (forall₂_congr fun m _ => Match.survives_iff))
  have hfields : (json depth).Survives d ↔
      d.meta.Fits ∧ ∀ e ∈ d.rules.entries, ∀ m ∈ e.2.matches_, m.2.Below depth ∧ m.2.Fits :=
    Format.survives_record.trans (Fields.survives_via.trans (Fields.survives_both.trans (and_congr
      (Fields.survives_required.trans ResultDocument.Metadata.survives_iff)
      (Fields.survives_required.trans
        (survives_map.trans (forall₂_congr fun e _ => hrules e.2))))))
  rw [hfields]
  constructor
  · intro ⟨hmeta, h⟩
    exact ⟨fun e he m hm => (h e he m hm).1, hmeta, fun e he m hm => (h e he m hm).2⟩
  · intro ⟨hbelow, hmeta, hfits⟩
    exact ⟨hmeta, fun e he m hm => ⟨hbelow e he m hm, hfits e he m hm⟩⟩

end ResultDocument

/-! ## The document of an analysis -/

section

variable {set : MatchingRuleSet} {results : MatchResults}

/-- A feature of the evidence is none of the kind that has no rendered form. -/
theorem of_feature {f : Feature} {d : Option String} {r : ResultDocument.RenderedFeature}
    (h : ResultDocument.RenderedFeature.of f d = .ok r) :
    Succeeds (RdFeature.fromEngine r.feature r.description) := by
  obtain ⟨hsucceeds, rfl⟩ := ResultDocument.RenderedFeature.of_eq_ok.mp h
  exact hsucceeds

theorem Node.of_rendered {node : MatchedNode} {d : Option String} {n : ResultDocument.Node}
    (h : ResultDocument.nodeFromMatched node d = .ok n) : Succeeds (Node.of n) := by
  cases node with
  | range feature min max =>
    obtain ⟨child, hchild, h⟩ := bind_eq_ok.mp h
    obtain rfl := Except.ok.inj h
    obtain ⟨w, hw⟩ := of_feature (mapError_eq_ok.mp hchild)
    exact ⟨_, bind_eq_ok.mpr ⟨_, bind_eq_ok.mpr ⟨w, hw, rfl⟩, rfl⟩⟩
  | leaf feature =>
    obtain ⟨f, hf, h⟩ := bind_eq_ok.mp h
    obtain rfl := Except.ok.inj h
    obtain ⟨w, hw⟩ := of_feature (mapError_eq_ok.mp hf)
    exact ⟨_, bind_eq_ok.mpr ⟨w, hw, rfl⟩⟩
  | some count =>
    simp only [ResultDocument.nodeFromMatched] at h
    split at h
    · obtain rfl := Except.ok.inj h
      exact ⟨_, rfl⟩
    · obtain rfl := Except.ok.inj h
      exact ⟨_, rfl⟩
  | _ =>
    obtain rfl := Except.ok.inj h
    exact ⟨_, rfl⟩

/-- Evidence that is built can be serialized, and is no deeper than the recursion that built it. -/
theorem Match.of_built {depth : Nat} {t : MatchResult} {m : ResultDocument.Match}
    (h : ResultDocument.buildMatch set results depth t = .ok m) :
    ∃ w, Match.of m = .ok w ∧ w.Below depth := by
  induction depth generalizing t m with
  | zero => cases h
  | succ depth ih =>
    obtain ⟨_, hnode, hbuilt⟩ := ResultDocument.buildMatch_ok h
    have hchild : ∀ c ∈ m.children, ∃ w, Match.of c = .ok w ∧ w.Below depth := by
      intro c hc
      obtain ⟨b, _, hb⟩ := hbuilt c hc
      exact ih hb
    obtain ⟨node, hof⟩ : Succeeds (Node.of m.node) := by
      obtain hnode | ⟨scope, hscope⟩ := hnode
      · exact Node.of_rendered hnode
      · rw [hscope]
        exact ⟨_, rfl⟩
    obtain ⟨ws, hws⟩ : Succeeds (m.children.mapM Match.of) := by
      refine succeeds_mapM.mpr fun c hc => ?_
      obtain ⟨w, hw, _⟩ := hchild c hc
      exact ⟨w, hw⟩
    obtain ⟨success, n, children, locations, captures⟩ := m
    refine ⟨⟨success, node, ws, locations.map RdAddress.from,
      captures.mapValues fun addresses => addresses.map RdAddress.from⟩, ?_, ?_⟩
    · rw [Match.of]
      exact bind_eq_ok.mpr ⟨node, hof, bind_eq_ok.mpr ⟨ws, hws, rfl⟩⟩
    · intro w hw
      obtain ⟨c, hc, hcw⟩ := exists_of_mem_mapM hws hw
      obtain ⟨w', hw', hbelow⟩ := hchild c hc
      obtain rfl := Except.ok.inj (hcw.symm.trans hw')
      exact hbelow

/-- The rules of a document that is built can be serialized. -/
theorem rules_of_built {order : IterOrder} {depth : Nat}
    {doc : OrdMap String ResultDocument.RuleMatches}
    (h : ResultDocument.buildResultDocument set results order depth = .ok doc) :
    ∀ e ∈ doc.entries, ∃ r, RuleMatches.of e.2 = .ok r ∧ ∀ m ∈ r.matches_, m.2.Below depth := by
  intro e he
  obtain ⟨res, _, _, _, hrendered⟩ :=
    ResultDocument.rule_of_document h (OrdMap.mem_entries_iff.mp he)
  have hmatch : ∀ x ∈ e.2.matches_, ∃ w, Match.of x.2 = .ok w ∧ w.Below depth := by
    intro x hx
    obtain ⟨r, _, hbuilt⟩ := ResultDocument.exists_of_mem_renderMatches hrendered hx
    exact Match.of_built hbuilt
  obtain ⟨ms, hms⟩ : Succeeds (e.2.matches_.mapM fun x => do
      let m ← Match.of x.2
      return (RdAddress.from x.1, m)) := by
    refine succeeds_mapM.mpr fun x hx => ?_
    obtain ⟨w, hw, _⟩ := hmatch x hx
    exact ⟨_, bind_eq_ok.mpr ⟨w, hw, rfl⟩⟩
  refine ⟨_, bind_eq_ok.mpr ⟨ms, hms, rfl⟩, fun m hm => ?_⟩
  obtain ⟨x, hx, hxm⟩ := exists_of_mem_mapM hms hm
  obtain ⟨w, hw, hxm⟩ := bind_eq_ok.mp hxm
  obtain rfl := Except.ok.inj hxm
  obtain ⟨w', hw', hbelow⟩ := hmatch x hx
  obtain rfl := Except.ok.inj (hw.symm.trans hw')
  exact hbelow

theorem ResultDocument.of_built {order : IterOrder} {depth : Nat}
    {metadata : ResultDocument.Metadata} {rules : OrdMap String ResultDocument.RuleMatches}
    (h : ResultDocument.buildResultDocument set results order depth = .ok rules) :
    ∃ w, ResultDocument.of ⟨metadata, rules⟩ = .ok w ∧ w.Below depth := by
  obtain ⟨rs, hrs⟩ : Succeeds (rules.entries.mapM fun e => do
      let r ← RuleMatches.of e.2
      return (e.1, r)) := by
    refine succeeds_mapM.mpr fun e he => ?_
    obtain ⟨r, hr, _⟩ := rules_of_built h e he
    exact ⟨_, bind_eq_ok.mpr ⟨r, hr, rfl⟩⟩
  refine ⟨_, bind_eq_ok.mpr ⟨rs, hrs, rfl⟩, fun e he => ?_⟩
  obtain ⟨x, hx, hxe⟩ := exists_of_mem_mapM hrs (OrdMap.mem_of_mem_ofList he)
  obtain ⟨r, hr, hxe⟩ := bind_eq_ok.mp hxe
  obtain rfl := Except.ok.inj hxe
  obtain ⟨r', hr', hbelow⟩ := rules_of_built h x hx
  obtain rfl := Except.ok.inj (hr.symm.trans hr')
  exact hbelow

end

end Rd

namespace Api

open ResultDocument

/-- A document that an analysis returns is serialized, and is read back as it is exactly when its
    numbers are ones JSON holds, by a reader that follows the evidence as deep as the renderer. -/
theorem document_reread [RegexBackend] {input : Input} {set : MatchingRuleSet}
    {parsed : LoadedInput} {resolvedFormat timestamp : String} {depth : Nat}
    {options : AnalysisOptions} {doc : Document}
    (h : BuildsResultDocument input set parsed resolvedFormat timestamp depth options (.ok doc)) :
    ∃ w, Rd.ResultDocument.of doc = .ok w ∧
      (((Rd.ResultDocument.json depth).write w).bind (Rd.ResultDocument.json depth).read = some w ↔
        w.Fits) := by
  have hbuilt : ∃ w, Rd.ResultDocument.of doc = .ok w ∧ w.Below depth := by
    generalize hr : Except.ok doc = r at h
    cases h with
    | static_ orders after hfreeze hfinds =>
      obtain ⟨caps, _, hdoc⟩ := bind_eq_ok.mp hr.symm
      obtain ⟨rules, hrules, hdoc⟩ := bind_eq_ok.mp (mapError_eq_ok.mp hdoc)
      obtain rfl := Except.ok.inj hdoc
      exact Rd.ResultDocument.of_built hrules
    | dynamic orders after hfreeze =>
      obtain ⟨caps, _, hdoc⟩ := bind_eq_ok.mp hr.symm
      obtain ⟨rules, hrules, hdoc⟩ := bind_eq_ok.mp (mapError_eq_ok.mp hdoc)
      obtain rfl := Except.ok.inj hdoc
      exact Rd.ResultDocument.of_built hrules
  obtain ⟨w, hw, hbelow⟩ := hbuilt
  exact ⟨w, hw, Rd.ResultDocument.survives_iff.trans (and_iff_right hbelow)⟩

theorem document_reread_nestedSubscopes :
    ∃ set doc, @MatchingRuleSet.new .empty nestedSubscopes = .ok set ∧
      @BuildsResultDocument .empty ⟨"sample", [], none⟩ set copyingInput "freeze" "" 5
        ⟨.SERIAL, none, none⟩ (.ok doc) ∧
      (doc.rules.get? "a").isSome = true ∧
      ∃ w, Rd.ResultDocument.of doc = .ok w ∧
        (((Rd.ResultDocument.json 5).write w).bind (Rd.ResultDocument.json 5).read = some w ↔
          w.Fits) := by
  obtain ⟨set, doc, hset, hdoc, hget⟩ : ∃ set doc, @MatchingRuleSet.new .empty nestedSubscopes =
      .ok set ∧ @BuildsResultDocument .empty ⟨"sample", [], none⟩ set copyingInput "freeze" "" 5
        ⟨.SERIAL, none, none⟩ (.ok doc) ∧ (doc.rules.get? "a").isSome = true := by
    have hbuilds := fun set caps doc hrun hdoc => (@builds_static .empty set ⟨"sample", [], none⟩
      copyingInput "freeze" "" 5 ⟨.SERIAL, none, none⟩ _ _ rfl doc).mpr
        ⟨.insertion, ⟨.insertion, .insertion⟩, caps, hrun, hdoc⟩
    exact ⟨_, _, rfl, hbuilds _ _ _ rfl rfl, rfl⟩
  exact ⟨set, doc, hset, hdoc, hget, @document_reread .empty _ _ _ _ _ _ _ _ hdoc⟩

end Api

end CapaX
