import CapaX.Api
import CapaX.Codec.Fields
import CapaX.Collections.OrdMap
import CapaX.ResultDocument.RuleMetadata
import CapaX.Wire.Rendered

/-
  The result document as it is serialized (`result_document`: `address.rs`, `feature.rs`, `tree.rs`
  and `meta.rs`). The attributes of each type say how it is written and read; they are spelled out
  here as the fields of a record or of a variant. A record refuses keys it does not have, but for
  the variants of statements, nodes and features. (That a reader also takes a record as the list of
  its values is left out.)

  Evidence is read to a depth: a parser that calls itself has a limit.
-/

namespace CapaX

open Codec Collections Json

instance Json.tree : Treelike Value where
  null := .null
  text := .string
  list := .array
  object := .object
  isNull
    | .null => true
    | _ => false
  asText := Value.asStr
  asList := Value.asArray
  asObject
    | .object entries => some entries
    | _ => none
  isNull_null := rfl
  asText_text _ := rfl
  asList_list _ := rfl
  asObject_object _ := rfl

/-! ## Values -/

namespace Json

def boolFormat : Format Value Bool where
  write b := some (.bool b)
  read
    | .bool b => some b
    | _ => none

def u64Format : Format Value UInt64 where
  write n := some (.number (.posInt n))
  read := Value.asU64

/-- An `i64`; the model has any integer. -/
def i64Format : Format Value Int where
  write := Value.ofI128
  read := Value.asI64

/-- A `u64` that counts; the model has any number. -/
def countFormat : Format Value Nat where
  write n := Value.ofI128 n
  read v := v.asU64.map UInt64.toNat

/-- `BTreeMap` with the keys of an object. -/
def mapFormat {α : Type} (f : Format Value α) : Format Value (OrdMap String α) where
  write m := (m.entries.mapM f.entry.write).map .object
  read
    | .object entries => (entries.mapM f.entry.read).map .ofList
    | _ => none

def pairFormat {α β : Type} (f : Format Value α) (g : Format Value β) : Format Value (α × β) where
  write p := (f.write p.1).bind fun v => (g.write p.2).map fun w => .array [v, w]
  read
    | .array [v, w] => (f.read v).bind fun a => (g.read w).map fun b => (a, b)
    | _ => none

end Json

/-! ## Addresses and features -/

/-- Untagged: an integer, or else a list of integers. -/
def AddressValue.ofJson (v : Value) : Option AddressValue :=
  match v.asU64 with
  | some n => some (.int n)
  | none => (v.asArray.bind fun items => items.mapM Value.asU64).map .tuple

def AddressValue.json : Format Value AddressValue := ⟨fun v => some v.toJson, AddressValue.ofJson⟩

def RdAddress.fields : Fields Value RdAddress :=
  ((Fields.required "type" .text).both (.optional "value" AddressValue.json) (by decide)).via
    ⟨fun p => ⟨p.1, p.2⟩, fun a => (a.kind, a.value), fun _ => rfl, fun _ => rfl⟩

def RdAddress.json : Format Value RdAddress :=
  ⟨fun a => some a.toJson, (Format.record RdAddress.fields).read⟩

/-- The visitor reads integers of any width and floats. -/
def RdNumber.ofJson : Value → Option RdNumber
  | .number (.posInt n) => some (.int n.toNat)
  | .number (.negInt n) => some (.int n.toInt)
  | .number (.float v) => some (.float v)
  | _ => none

def RdNumber.json : Format Value RdNumber := ⟨RdNumber.toJson, RdNumber.ofJson⟩

namespace Rd

def description : Fields Value (Option String) := .optional "description" .text

/-- A value under its key, and the description. -/
def described {α : Type} (key : String) (f : Format Value α) (h : key ≠ "description") :
    Fields Value (α × Option String) :=
  (Fields.required key f).both description fun _ hk => by
    obtain rfl := List.mem_singleton.mp hk
    exact fun hd => h (List.mem_singleton.mp hd)

/-- A name under its key, and the description. -/
abbrev labelled (key : String) (h : key ≠ "description") : Fields Value (String × Option String) :=
  described key .text h

def propertyFields : Fields Value (Option String × String × Option String) :=
  (Fields.optional "access" .text).both (labelled "property" (by decide)) (by decide)

def operandFields {α : Type} (key : String) (f : Format Value α) (h : key ≠ "description")
    (hindex : "index" ≠ key) : Fields Value (Int × α × Option String) :=
  (Fields.required "index" i64Format).both (described key f h) fun _ hk hk' => by
    obtain rfl := List.mem_singleton.mp hk
    obtain rfl | hk' := List.mem_cons.mp hk'
    · exact hindex rfl
    · exact absurd (List.mem_singleton.mp hk') (by decide)

end Rd

open Rd in
/-- By the `type` of the object. -/
def RdFeature.ofName (name : String) (entries : List (String × Value)) : Option RdFeature :=
  match name with
  | "os" => ((labelled "os" (by decide)).read entries).map fun p => .os p.1 p.2
  | "arch" => ((labelled "arch" (by decide)).read entries).map fun p => .arch p.1 p.2
  | "format" => ((labelled "format" (by decide)).read entries).map fun p => .format p.1 p.2
  | "match" => ((labelled "match" (by decide)).read entries).map fun p => .match_ p.1 p.2
  | "characteristic" =>
    ((labelled "characteristic" (by decide)).read entries).map fun p => .characteristic p.1 p.2
  | "export" => ((labelled "export" (by decide)).read entries).map fun p => .export_ p.1 p.2
  | "import" => ((labelled "import_" (by decide)).read entries).map fun p => .import_ p.1 p.2
  | "section" => ((labelled "section" (by decide)).read entries).map fun p => .section_ p.1 p.2
  | "function name" =>
    ((labelled "function_name" (by decide)).read entries).map fun p => .functionName p.1 p.2
  | "substring" => ((labelled "substring" (by decide)).read entries).map fun p => .substring p.1 p.2
  | "regex" => ((labelled "regex" (by decide)).read entries).map fun p => .regex p.1 p.2
  | "string" => ((labelled "string" (by decide)).read entries).map fun p => .string p.1 p.2
  | "class" => ((labelled "class_" (by decide)).read entries).map fun p => .class_ p.1 p.2
  | "namespace" =>
    ((labelled "namespace" (by decide)).read entries).map fun p => .namespace_ p.1 p.2
  | "basic block" => (Rd.description.read entries).map .basicBlock
  | "api" => ((labelled "api" (by decide)).read entries).map fun p => .api p.1 p.2
  | "property" => (propertyFields.read entries).map fun p => .property p.1 p.2.1 p.2.2
  | "number" =>
    ((described "number" RdNumber.json (by decide)).read entries).map fun p => .number p.1 p.2
  | "bytes" => ((labelled "bytes" (by decide)).read entries).map fun p => .bytes p.1 p.2
  | "offset" =>
    ((described "offset" i64Format (by decide)).read entries).map fun p => .offset p.1 p.2
  | "mnemonic" => ((labelled "mnemonic" (by decide)).read entries).map fun p => .mnemonic p.1 p.2
  | "operand number" =>
    ((operandFields "operand_number" RdNumber.json (by decide) (by decide)).read entries).map
      fun p => .operandNumber p.1 p.2.1 p.2.2
  | "operand offset" =>
    ((operandFields "operand_offset" i64Format (by decide) (by decide)).read entries).map
      fun p => .operandOffset p.1 p.2.1 p.2.2
  | _ => none

def RdFeature.json : Format Value RdFeature :=
  ⟨RdFeature.toJson, readTagged "type" RdFeature.ofName⟩

/-! ## Evidence -/

namespace Rd

inductive Statement where
  | and (description : Option String)
  | or (description : Option String)
  | not (description : Option String)
  | optional (description : Option String)
  | some (description : Option String) (count : UInt64)
  | range (description : Option String) (min max : UInt64) (child : RdFeature)
  | subscope (description : Option String) (scope : String)

def someFields : Fields Value (Option String × UInt64) :=
  description.both (.required "count" u64Format) (by decide)

def rangeFields : Fields Value (Option String × UInt64 × UInt64 × RdFeature) :=
  description.both ((Fields.required "min" u64Format).both
    ((Fields.required "max" u64Format).both (.required "child" RdFeature.json) (by decide))
    (by decide)) (by decide)

def subscopeFields : Fields Value (Option String × String) :=
  description.both (.required "scope" .text) (by decide)

namespace Statement

def toJson : Statement → Option Value
  | .and d => writeTagged "type" "and" Rd.description d
  | .or d => writeTagged "type" "or" Rd.description d
  | .not d => writeTagged "type" "not" Rd.description d
  | .optional d => writeTagged "type" "optional" Rd.description d
  | .some d count => writeTagged "type" "some" someFields (d, count)
  | .range d min max child => writeTagged "type" "range" rangeFields (d, min, max, child)
  | .subscope d scope => writeTagged "type" "subscope" subscopeFields (d, scope)

def ofName (name : String) (entries : List (String × Value)) : Option Statement :=
  match name with
  | "and" => (Rd.description.read entries).map .and
  | "or" => (Rd.description.read entries).map .or
  | "not" => (Rd.description.read entries).map .not
  | "optional" => (Rd.description.read entries).map .optional
  | "some" => (someFields.read entries).map fun p => .some p.1 p.2
  | "range" => (rangeFields.read entries).map fun p => .range p.1 p.2.1 p.2.2.1 p.2.2.2
  | "subscope" => (subscopeFields.read entries).map fun p => .subscope p.1 p.2
  | _ => none

def json : Format Value Statement := ⟨toJson, readTagged "type" ofName⟩

end Statement

inductive Node where
  | statement (statement : Statement)
  | feature (feature : RdFeature)

namespace Node

def toJson : Node → Option Value
  | .statement s => writeTagged "type" "statement" (.required "statement" Statement.json) s
  | .feature f => writeTagged "type" "feature" (.required "feature" RdFeature.json) f

def ofName (name : String) (entries : List (String × Value)) : Option Node :=
  match name with
  | "statement" => ((Fields.required "statement" Statement.json).read entries).map .statement
  | "feature" => ((Fields.required "feature" RdFeature.json).read entries).map .feature
  | _ => none

def json : Format Value Node := ⟨toJson, readTagged "type" ofName⟩

end Node

structure Match where
  success : Bool
  node : Node
  children : List Match
  locations : List RdAddress
  captures : OrdMap String (List RdAddress)

namespace Match

/-- The fields of a match, with a format of its children. -/
def fields (child : Format Value Match) : Fields Value Match :=
  ((Fields.required "success" boolFormat).both ((Fields.required "node" Node.json).both
    ((Fields.required "children" child.list).both
      ((Fields.required "locations" RdAddress.json.list).both
        (.required "captures" (mapFormat RdAddress.json.list)) (by decide))
      (show ∀ k ∈ ["children"], k ∉ ["locations", "captures"] by decide))
    (show ∀ k ∈ ["node"], k ∉ ["children", "locations", "captures"] by decide))
    (show ∀ k ∈ ["success"], k ∉ ["node", "children", "locations", "captures"] by decide)).via
    ⟨fun p => ⟨p.1, p.2.1, p.2.2.1, p.2.2.2.1, p.2.2.2.2⟩,
      fun m => (m.success, m.node, m.children, m.locations, m.captures),
      fun _ => rfl, fun m => by cases m; rfl⟩

def toJson : Match → Option Value
  | ⟨success, node, children, locations, captures⟩ => do
    let node ← node.toJson
    let children ← children.mapM toJson
    let locations ← (Format.list RdAddress.json).write locations
    let captures ← (mapFormat (Format.list RdAddress.json)).write captures
    return .object [("success", .bool success), ("node", node), ("children", .array children),
      ("locations", locations), ("captures", captures)]

def ofJson : Nat → Value → Option Match
  | 0, _ => none
  | depth + 1, v => (Format.record (fields ⟨toJson, ofJson depth⟩)).read v

end Match

end Rd

/-! ## Rules -/

namespace ResultDocument

def RdScopes.json : Format Value RdScopes :=
  .record (((Fields.optional "static" .text).both (.optional "dynamic" .text) (by decide)).via
    ⟨fun p => ⟨p.1, p.2⟩, fun s => (s.static_, s.dynamic), fun _ => rfl, fun _ => rfl⟩)

/-- The two have fields of one shape under different keys. -/
def specFields (first second third : String)
    (h : ["parts", first, second, third, "id"].Nodup) :
    Fields Value (List String × String × String × String × String) :=
  (Fields.required "parts" (.list .text)).both ((Fields.required first .text).both
    ((Fields.required second .text).both ((Fields.required third .text).both
      (.required "id" .text) (show ∀ k ∈ [third], k ∉ ["id"] by simp_all))
      (show ∀ k ∈ [second], k ∉ [third, "id"] by simp_all))
      (show ∀ k ∈ [first], k ∉ [second, third, "id"] by simp_all))
      (show ∀ k ∈ ["parts"], k ∉ [first, second, third, "id"] by simp_all)

def AttackSpec.json : Format Value AttackSpec :=
  .record ((specFields "tactic" "technique" "subtechnique" (by decide)).via
    ⟨fun p => ⟨p.1, p.2.1, p.2.2.1, p.2.2.2.1, p.2.2.2.2⟩,
      fun s => (s.parts, s.tactic, s.technique, s.subtechnique, s.id), fun _ => rfl, fun _ => rfl⟩)

def MBCSpec.json : Format Value MBCSpec :=
  .record ((specFields "objective" "behavior" "method" (by decide)).via
    ⟨fun p => ⟨p.1, p.2.1, p.2.2.1, p.2.2.2.1, p.2.2.2.2⟩,
      fun s => (s.parts, s.objective, s.behavior, s.method, s.id), fun _ => rfl, fun _ => rfl⟩)

def MaecMetadata.json : Format Value MaecMetadata :=
  .record (((Fields.optional "analysis_conclusion" .text).both
    ((Fields.optional "analysis_conclusion_ov" .text).both
      ((Fields.optional "malware_family" .text).both
        ((Fields.optional "malware_category" .text).both
          (.optional "malware_category_ov" .text) (by decide)) (by decide)) (by decide))
    (by decide)).via
    ⟨fun p => ⟨p.1, p.2.1, p.2.2.1, p.2.2.2.1, p.2.2.2.2⟩,
      fun m => (m.analysisConclusion, m.analysisConclusionOv, m.malwareFamily, m.malwareCategory,
        m.malwareCategoryOv), fun _ => rfl, fun _ => rfl⟩)

def RuleMetadata.json : Format Value RuleMetadata :=
  .record (((Fields.required "name" .text).both ((Fields.optional "namespace" .text).both
    ((Fields.required "authors" (.list .text)).both ((Fields.required "scopes" RdScopes.json).both
      ((Fields.required "attack" (.list AttackSpec.json)).both
        ((Fields.required "mbc" (.list MBCSpec.json)).both
          ((Fields.required "references" (.list .text)).both
            ((Fields.required "examples" (.list .text)).both
              ((Fields.required "description" .text).both ((Fields.required "lib" boolFormat).both
                ((Fields.required "is_subscope_rule" boolFormat).both
                  (.required "maec" MaecMetadata.json)
    (by decide)) (by decide)) (by decide)) (by decide)) (by decide)) (by decide)) (by decide))
    (by decide)) (by decide)) (by decide)) (by decide)).via
    ⟨fun p => ⟨p.1, p.2.1, p.2.2.1, p.2.2.2.1, p.2.2.2.2.1, p.2.2.2.2.2.1, p.2.2.2.2.2.2.1,
        p.2.2.2.2.2.2.2.1, p.2.2.2.2.2.2.2.2.1, p.2.2.2.2.2.2.2.2.2.1, p.2.2.2.2.2.2.2.2.2.2.1,
        p.2.2.2.2.2.2.2.2.2.2.2⟩,
      fun r => (r.name, r.namespace_, r.authors, r.scopes, r.attack, r.mbc, r.references,
        r.examples, r.description, r.lib, r.isSubscopeRule, r.maec), fun _ => rfl, fun _ => rfl⟩)

end ResultDocument

namespace Rd

structure RuleMatches where
  «meta» : ResultDocument.RuleMetadata
  source : String
  matches_ : List (RdAddress × Match)

/-- The fields of a rule, with a format of the evidence. -/
def RuleMatches.fields (evidence : Format Value Match) : Fields Value RuleMatches :=
  ((Fields.required "meta" ResultDocument.RuleMetadata.json).both
    ((Fields.required "source" .text).both
      (.required "matches" (.list (pairFormat RdAddress.json evidence)))
      (show ∀ k ∈ ["source"], k ∉ ["matches"] by decide))
    (show ∀ k ∈ ["meta"], k ∉ ["source", "matches"] by decide)).via
    ⟨fun p => ⟨p.1, p.2.1, p.2.2⟩, fun r => (r.meta, r.source, r.matches_), fun _ => rfl,
      fun _ => rfl⟩

/-! ## Metadata -/

end Rd

namespace ResultDocument

def RdSample.json : Format Value RdSample :=
  .record (((Fields.required "md5" .text).both ((Fields.required "sha1" .text).both
    ((Fields.required "sha256" .text).both (.required "path" .text) (by decide)) (by decide))
    (by decide)).via
    ⟨fun p => ⟨p.1, p.2.1, p.2.2.1, p.2.2.2⟩, fun s => (s.md5, s.sha1, s.sha256, s.path),
      fun _ => rfl, fun _ => rfl⟩)

def BasicBlockLayout.json : Format Value BasicBlockLayout :=
  .record ((Fields.required "address" RdAddress.json).via
    ⟨BasicBlockLayout.mk, BasicBlockLayout.address, fun _ => rfl, fun _ => rfl⟩)

def FunctionLayout.json : Format Value FunctionLayout :=
  .record (((Fields.required "address" RdAddress.json).both
    (.required "matched_basic_blocks" (.list BasicBlockLayout.json)) (by decide)).via
    ⟨fun p => ⟨p.1, p.2⟩, fun f => (f.address, f.matchedBasicBlocks), fun _ => rfl, fun _ => rfl⟩)

def StaticLayout.json : Format Value StaticLayout :=
  .record ((Fields.required "functions" (.list FunctionLayout.json)).via
    ⟨StaticLayout.mk, StaticLayout.functions, fun _ => rfl, fun _ => rfl⟩)

def CallLayout.json : Format Value CallLayout :=
  .record (((Fields.required "address" RdAddress.json).both (.required "name" .text)
    (by decide)).via
    ⟨fun p => ⟨p.1, p.2⟩, fun c => (c.address, c.name), fun _ => rfl, fun _ => rfl⟩)

def ThreadLayout.json : Format Value ThreadLayout :=
  .record (((Fields.required "address" RdAddress.json).both
    (.required "matched_calls" (.list CallLayout.json)) (by decide)).via
    ⟨fun p => ⟨p.1, p.2⟩, fun t => (t.address, t.matchedCalls), fun _ => rfl, fun _ => rfl⟩)

def ProcessLayout.json : Format Value ProcessLayout :=
  .record (((Fields.required "address" RdAddress.json).both ((Fields.required "name" .text).both
    (.required "matched_threads" (.list ThreadLayout.json)) (by decide)) (by decide)).via
    ⟨fun p => ⟨p.1, p.2.1, p.2.2⟩, fun l => (l.address, l.name, l.matchedThreads), fun _ => rfl,
      fun _ => rfl⟩)

def DynamicLayout.json : Format Value DynamicLayout :=
  .record ((Fields.required "processes" (.list ProcessLayout.json)).via
    ⟨DynamicLayout.mk, DynamicLayout.processes, fun _ => rfl, fun _ => rfl⟩)

def LibraryFunction.json : Format Value LibraryFunction :=
  .record (((Fields.required "address" RdAddress.json).both (.required "name" .text)
    (by decide)).via
    ⟨fun p => ⟨p.1, p.2⟩, fun l => (l.address, l.name), fun _ => rfl, fun _ => rfl⟩)

def FunctionFeatureCount.json : Format Value FunctionFeatureCount :=
  .record (((Fields.required "address" RdAddress.json).both (.required "count" countFormat)
    (by decide)).via
    ⟨fun p => ⟨p.1, p.2⟩, fun c => (c.address, c.count), fun _ => rfl, fun _ => rfl⟩)

def ProcessFeatureCount.json : Format Value ProcessFeatureCount :=
  .record (((Fields.required "address" RdAddress.json).both (.required "count" countFormat)
    (by decide)).via
    ⟨fun p => ⟨p.1, p.2⟩, fun c => (c.address, c.count), fun _ => rfl, fun _ => rfl⟩)

def StaticFeatureCounts.json : Format Value StaticFeatureCounts :=
  .record (((Fields.required "file" countFormat).both
    (.required "functions" (.list FunctionFeatureCount.json)) (by decide)).via
    ⟨fun p => ⟨p.1, p.2⟩, fun c => (c.file, c.functions), fun _ => rfl, fun _ => rfl⟩)

def DynamicFeatureCounts.json : Format Value DynamicFeatureCounts :=
  .record (((Fields.required "file" countFormat).both
    (.required "processes" (.list ProcessFeatureCount.json)) (by decide)).via
    ⟨fun p => ⟨p.1, p.2⟩, fun c => (c.file, c.processes), fun _ => rfl, fun _ => rfl⟩)

def StaticAnalysis.json : Format Value StaticAnalysis :=
  .record (((Fields.required "format" .text).both ((Fields.required "arch" .text).both
    ((Fields.required "os" .text).both ((Fields.required "extractor" .text).both
      ((Fields.required "rules" (.list .text)).both
        ((Fields.required "base_address" RdAddress.json).both
          ((Fields.required "layout" StaticLayout.json).both
            ((Fields.required "feature_counts" StaticFeatureCounts.json).both
              (.required "library_functions" (.list LibraryFunction.json))
    (by decide)) (by decide)) (by decide)) (by decide)) (by decide)) (by decide)) (by decide))
    (by decide)).via
    ⟨fun p => ⟨p.1, p.2.1, p.2.2.1, p.2.2.2.1, p.2.2.2.2.1, p.2.2.2.2.2.1, p.2.2.2.2.2.2.1,
        p.2.2.2.2.2.2.2.1, p.2.2.2.2.2.2.2.2⟩,
      fun a => (a.format, a.arch, a.os, a.extractor, a.rules, a.baseAddress, a.layout,
        a.featureCounts, a.libraryFunctions), fun _ => rfl, fun _ => rfl⟩)

def DynamicAnalysis.json : Format Value DynamicAnalysis :=
  .record (((Fields.required "format" .text).both ((Fields.required "arch" .text).both
    ((Fields.required "os" .text).both ((Fields.required "extractor" .text).both
      ((Fields.required "rules" (.list .text)).both
        ((Fields.required "layout" DynamicLayout.json).both
          (.required "feature_counts" DynamicFeatureCounts.json)
    (by decide)) (by decide)) (by decide)) (by decide)) (by decide)) (by decide)).via
    ⟨fun p => ⟨p.1, p.2.1, p.2.2.1, p.2.2.2.1, p.2.2.2.2.1, p.2.2.2.2.2.1, p.2.2.2.2.2.2⟩,
      fun a => (a.format, a.arch, a.os, a.extractor, a.rules, a.layout, a.featureCounts),
      fun _ => rfl, fun _ => rfl⟩)

namespace Metadata

/-- What both flavors have, and an analysis. -/
def fields {α : Type} (analysis : Format Value α) :
    Fields Value (String × String × Option (List String) × RdSample × α) :=
  (Fields.required "timestamp" .text).both ((Fields.required "version" .text).both
    ((Fields.optional "argv" (.list .text)).both ((Fields.required "sample" RdSample.json).both
      (.required "analysis" analysis) (show ∀ k ∈ ["sample"], k ∉ ["analysis"] by decide))
      (show ∀ k ∈ ["argv"], k ∉ ["sample", "analysis"] by decide))
      (show ∀ k ∈ ["version"], k ∉ ["argv", "sample", "analysis"] by decide))
      (show ∀ k ∈ ["timestamp"], k ∉ ["version", "argv", "sample", "analysis"] by decide)

def toJson : Metadata → Option Value
  | .static_ timestamp version argv sample analysis =>
    writeTagged "flavor" "static" (fields StaticAnalysis.json)
      (timestamp, version, argv, sample, analysis)
  | .dynamic timestamp version argv sample analysis =>
    writeTagged "flavor" "dynamic" (fields DynamicAnalysis.json)
      (timestamp, version, argv, sample, analysis)

/-- A variant of the metadata refuses other keys. -/
def ofName (name : String) (entries : List (String × Value)) : Option Metadata :=
  match name with
  | "static" => ((Format.record (fields StaticAnalysis.json)).read (.object entries)).map
      fun p => .static_ p.1 p.2.1 p.2.2.1 p.2.2.2.1 p.2.2.2.2
  | "dynamic" => ((Format.record (fields DynamicAnalysis.json)).read (.object entries)).map
      fun p => .dynamic p.1 p.2.1 p.2.2.1 p.2.2.2.1 p.2.2.2.2
  | _ => none

def json : Format Value Metadata := ⟨toJson, readTagged "flavor" ofName⟩

end Metadata

end ResultDocument

/-! ## Documents -/

namespace Rd

structure ResultDocument where
  «meta» : ResultDocument.Metadata
  rules : OrdMap String RuleMatches

namespace ResultDocument

/-- With evidence that is read to a depth. -/
def json (depth : Nat) : Format Value ResultDocument :=
  .record (((Fields.required "meta" ResultDocument.Metadata.json).both
    (.required "rules"
      (mapFormat (.record (RuleMatches.fields ⟨Match.toJson, Match.ofJson depth⟩))))
    (show ∀ k ∈ ["meta"], k ∉ ["rules"] by decide)).via
    ⟨fun p => ⟨p.1, p.2⟩, fun d => (d.meta, d.rules), fun _ => rfl, fun _ => rfl⟩)

end ResultDocument

/-! ## The document of an analysis -/

def Statement.of : ResultDocument.Statement → Except String Statement
  | .and d => .ok (.and d)
  | .or d => .ok (.or d)
  | .not d => .ok (.not d)
  | .optional d => .ok (.optional d)
  | .some d count => .ok (.some d count)
  | .range d min max child => do
    let child ← RdFeature.fromEngine child.feature child.description
    return .range d min max child
  | .subscope d scope => .ok (.subscope d scope)

def Node.of : ResultDocument.Node → Except String Node
  | .statement s => do
    let s ← Statement.of s
    return .statement s
  | .feature f => do
    let f ← RdFeature.fromEngine f.feature f.description
    return .feature f

def Match.of : ResultDocument.Match → Except String Match
  | ⟨success, node, children, locations, captures⟩ => do
    let node ← Node.of node
    let children ← children.mapM Match.of
    return ⟨success, node, children, locations.map RdAddress.from,
      captures.mapValues fun addresses => addresses.map RdAddress.from⟩

def RuleMatches.of (r : ResultDocument.RuleMatches) : Except String RuleMatches := do
  let rendered ← r.matches_.mapM fun e => do
    let m ← Match.of e.2
    return (RdAddress.from e.1, m)
  return ⟨ResultDocument.ruleMetadata r.rule, r.rule.source, rendered⟩

/-- The document that is serialized: the data of what was built, feature by feature and address by
    address. -/
def ResultDocument.of (d : ResultDocument.Document) : Except String ResultDocument := do
  let rules ← d.rules.entries.mapM fun e => do
    let r ← RuleMatches.of e.2
    return (e.1, r)
  return ⟨d.metadata, .ofList rules⟩

end Rd

end CapaX
