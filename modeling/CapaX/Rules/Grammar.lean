import CapaX.Control.Except
import CapaX.Rules.Supported
import CapaX.Rules.Text

/-
  The grammar of rule bodies (`rules/grammar.rs`): from a YAML mapping to a node. `buildNode` is
  the body of `build_statements` with the function that builds the children as an argument, and
  `buildStatements` ties the knot, with the depth of the document as the bound of the recursion
  (`buildStatements_eq`).
-/

namespace CapaX

open Yaml Text

/-- `DESCRIPTION_SEPARATOR` -/
def descriptionSeparator : String := " = "

/-- `VALID_ARCH` -/
def validArch : List String := ["i386", "amd64", "aarch64", "any"]

/-- `VALID_FORMAT` -/
def validFormat : List String := ["pe", "elf", "dotnet", "macho"]

/-- `VALID_OS` -/
def validOs : List String :=
  ["hpux", "netbsd", "linux", "hurd", "86open", "solaris", "aix", "irix", "freebsd", "tru64",
    "modesto", "openbsd", "openvms", "nsk", "aros", "fenixos", "cloud", "syllable", "nacl",
    "android", "dragonfly BSD", "illumos", "z/os", "unix", "windows", "macos", "any"]

/-- A typed scalar, the result of `parse_description`. -/
inductive RawScalar where
  | str (s : String)
  | int (n : Int)
  | bytes (b : List UInt8)

section Scalars

variable [Format]

/-- The `{:?}` of a scalar. -/
def RawScalar.debug : RawScalar → String
  | .str s => "Str(" ++ Format.debugStr s ++ ")"
  | .int n => "Int(" ++ toString n ++ ")"
  | .bytes b => "Bytes([" ++ String.intercalate ", " (b.map fun x => toString x.toNat) ++ "])"

def siblingDescription (d : Mapping) : Except RuleError (Option String) :=
  match d.get "description" with
  | none => .ok none
  | some (.string s) => .ok (some s)
  | some other =>
    .error (.invalid s!"description must be a string, got: {Format.debug other}")

def valueAsPlainStr : Value → Option String
  | .string s => some s
  | _ => none

def valueToScalar : Value → Except RuleError RawScalar
  | .string s => .ok (.str s)
  | .number n =>
    match n.asI64 with
    | some i => .ok (.int i)
    | none =>
      match n.asU64 with
      | some u => .ok (.int u)
      | none => .error (.invalid s!"unsupported numeric value: {Format.display n}")
  | other => .error (.invalid s!"unexpected value type: {Format.debug other}")

/-- `starts_with` and `ends_with` -/
def startsWith (p s : String) : Bool := p.toList.isPrefixOf s.toList

def endsWith (p s : String) : Bool := p.toList.isSuffixOf s.toList

def isNumericValueType (valueType : String) : Bool :=
  decide (valueType = "number") || decide (valueType = "offset") ||
    startsWith "number/" valueType || startsWith "offset/" valueType ||
    (startsWith "operand[" valueType &&
      (endsWith "].number" valueType || endsWith "].offset" valueType))

/-- `parse_int`: signed hexadecimal or decimal. -/
def parseInt (s : List Char) : Except RuleError Int :=
  let s := trim s
  let hexError (e : ParseIntError) :=
    RuleError.invalid s!"invalid hex integer: {String.ofList s} ({e.text})"
  match stripPrefix ['-', '0', 'x'] s with
  | some hex => (parseI128 16 ('-' :: hex)).mapError hexError
  | none =>
    match stripPrefix ['0', 'x'] s with
    | some hex => (parseI128 16 hex).mapError hexError
    | none => (parseI128 10 s).mapError fun e =>
        .invalid s!"invalid integer: {String.ofList s} ({e.text})"

def parseU32 (s : List Char) : Except RuleError UInt32 := do
  let v ← parseInt s
  if 0 ≤ v ∧ v < 2 ^ 32 then return UInt32.ofNat v.toNat
  else .error (.invalid s!"value out of range: {v}")

def parseBytes (s : String) : Except RuleError (List UInt8) :=
  match hexDecode (s.toList.filter fun c => decide (c ≠ ' ')) with
  | none => .error
      (.invalid s!"unexpected bytes value: must be a valid hex sequence: \"{s}\"")
  | some bytes =>
    if maxBytesFeatureSize < bytes.length then .error (.invalid s!"unexpected bytes value: byte sequences must be no larger than {maxBytesFeatureSize} bytes")
    else .ok bytes

def parseDescription (raw : Value) (valueType : String) (sibling : Option String) :
    Except RuleError (RawScalar × Option String) :=
  if valueType = "string" then
    match raw with
    | .string s => .ok (.str s, sibling)
    | other => .error (.invalid s!"ambiguous string value {Format.debug other}, must be defined as explicit string")
  else
    match raw with
    | .string s => do
      let (value, description) ← (match splitOnce descriptionSeparator.toList s.toList with
        | none => .ok (s, sibling)
        | some (value, desc) =>
          if sibling.isSome then .error (.invalid s!"unexpected value: \"{s}\", only one description allowed (inline description with `{descriptionSeparator}`)")
          else if desc.isEmpty then
            .error (.invalid s!"unexpected value: \"{s}\", description cannot be empty")
          else .ok (String.ofList value, some (String.ofList desc)) : Except RuleError _)
      if valueType = "bytes" then
        let bytes ← parseBytes value
        return (.bytes bytes, description)
      else if isNumericValueType valueType then
        let n ← (parseInt (trim value.toList)).mapError fun _ =>
          RuleError.invalid s!"unexpected value: \"{value}\", must begin with numerical value"
        return (.int n, description)
      else return (.str value, description)
    | other => do
      let value ← valueToScalar other
      return (value, sibling)

def expectString (v : RawScalar) (field : String) : Except RuleError String :=
  match v with
  | .str s => .ok s
  | other => .error
      (.invalid s!"expected a string value for `{field}`, got: {other.debug}")

def expectInt (v : RawScalar) (field : String) : Except RuleError Int :=
  match v with
  | .int n => .ok n
  | other => .error
      (.invalid s!"expected a numeric value for `{field}`, got: {other.debug}")

def expectBytes (v : RawScalar) (field : String) : Except RuleError (List UInt8) :=
  match v with
  | .bytes b => .ok b
  | other => .error
      (.invalid s!"expected a bytes value for `{field}`, got: {other.debug}")

/-! ## Leaves -/

def parseOperandIndex (key suffix : String) : Except RuleError Nat :=
  match (stripPrefix "operand[".toList key.toList).bind (CompiledRegex.stripSuffix suffix.toList) with
  | none => .error (.invalid s!"invalid operand feature: {key}")
  | some index =>
    match parseU8 index with
    | .error _ => .error (.invalid "operand index must be a nonnegative integer")
    | .ok index =>
      if (maxOperandIndex : Int) < index then
        .error (.invalid s!"operand index must be between 0 and {maxOperandIndex}")
      else .ok index.toNat

/-- `i64::try_from` -/
def tryI64 (n : Int) (message : String) : Except RuleError Int :=
  if -2 ^ 63 ≤ n ∧ n < 2 ^ 63 then .ok n else .error (.invalid (message ++ toString n))

def trimDllPart (api : String) : String :=
  if (splitOnce ['.', '#'] api.toList).isSome then api
  else if (api.toList.filter fun c => decide (c = '.')).length = 1 ∧
      (splitOnce [':', ':'] api.toList).isNone then
    match splitOnce ['.'] api.toList with
    | some (_, rest) => String.ofList rest
    | none => api
  else api

/-- `string_factory`: the text between slashes is a regular expression. -/
def stringFactory [RegexBackend] (value : String) : Except RuleError Feature :=
  if startsWith "/" value && (endsWith "/" value || endsWith "/i" value) &&
      decide (1 < value.toList.length) then do
    let re ← (CompiledRegex.compile value).mapError RuleError.invalid
    return .string (.regex re)
  else .ok (.string (.plain value))

/-- `feature_from_named_value` -/
def featureFromNamedValue (key : String) (value : RawScalar) : Except RuleError Feature :=
  match key with
  | "api" => Feature.api <$> expectString value key
  | "substring" => (fun s => Feature.string (.substring s)) <$> expectString value key
  | "bytes" => Feature.bytes <$> expectBytes value key
  | "number" => (fun n => Feature.number (.int n)) <$> expectInt value key
  | "offset" => do
    let n ← expectInt value key
    let n ← tryI64 n "offset value out of range: "
    return .offset n
  | key =>
    if startsWith "operand[" key && endsWith "].number" key then do
      let i ← parseOperandIndex key "].number"
      let n ← expectInt value key
      return .operandNumber i (.int n)
    else if startsWith "operand[" key && endsWith "].offset" key then do
      let n ← expectInt value key
      let i ← parseOperandIndex key "].offset"
      let n ← tryI64 n "operand offset value out of range: "
      return .operandOffset i n
    else match key with
      | "mnemonic" => Feature.mnemonic <$> expectString value key
      | "characteristic" => Feature.characteristic <$> expectString value key
      | "export" => Feature.export_ <$> expectString value key
      | "import" => Feature.import_ <$> expectString value key
      | "section" => Feature.section_ <$> expectString value key
      | "match" => Feature.matchedRule <$> expectString value key
      | "function-name" => Feature.functionName <$> expectString value key
      | "os" => Feature.os <$> expectString value key
      | "format" => Feature.format <$> expectString value key
      | "arch" => Feature.arch <$> expectString value key
      | "class" => Feature.class_ <$> expectString value key
      | "namespace" => Feature.namespace_ <$> expectString value key
      | "property" => (fun s => Feature.property s none) <$> expectString value key
      | other => .error (.invalid s!"unexpected statement: {other}")

/-- `d.get(key)` -/
def valueOf (d : Mapping) (key : String) : Except RuleError Value :=
  match d.get key with
  | some v => .ok v
  | none => .error (.invalid s!"missing value for {key}")

/-- A leaf whose feature is legal for the scopes. -/
def checkedLeaf (scopes : Scopes) (feature : Feature) (description : Option String) :
    Except RuleError Node := do
  ensureFeatureValidForScopes scopes feature
  return ⟨.leaf feature, description⟩

def buildDefaultLeaf [RegexBackend] (key : String) (d : Mapping) (scopes : Scopes) :
    Except RuleError Node := do
  let raw ← valueOf d key
  let sibling ← siblingDescription d
  let (value, description) ← parseDescription raw key sibling
  let feature ←
    (if key = "api" then (fun s => Feature.api (trimDllPart s)) <$> expectString value key
    else if key = "string" then do
      let s ← expectString value key
      stringFactory s
    else featureFromNamedValue key value : Except RuleError Feature)
  checkedLeaf scopes feature description

def buildOperand (key suffix : String) (d : Mapping) (scopes : Scopes)
    (ctor : Nat → Int → Except RuleError Feature) : Except RuleError Node := do
  let index ← parseOperandIndex key suffix
  let raw ← valueOf d key
  let sibling ← siblingDescription d
  let (value, description) ← parseDescription raw key sibling
  let n ← expectInt value key
  let feature ← ctor index n
  checkedLeaf scopes feature description

/-- The `property/` arm of `build_statements`. -/
def buildProperty (key : String) (d : Mapping) (raw : Value) (scopes : Scopes) :
    Except RuleError Node := do
  let accessStr := String.ofList (key.toList.drop "property/".length)
  match Access.parse accessStr with
  | none => .error (.invalid s!"unexpected {key} access {accessStr}")
  | some access => do
    let sibling ← siblingDescription d
    let (value, description) ← parseDescription raw key sibling
    let name ← expectString value key
    checkedLeaf scopes (.property name (some access)) description

/-- The `com/` arm of `build_statements`: a COM leaf is not checked against the scopes. -/
def buildCom (key : String) (d : Mapping) (raw : Value) : Except RuleError Node := do
  let comTypeName := String.ofList (key.toList.drop "com/".length)
  match ComKind.parse comTypeName with
  | none => .error (.invalid s!"unexpected COM type: {comTypeName}")
  | some comKind => do
    let sibling ← siblingDescription d
    let (value, description) ← parseDescription raw key sibling
    let name ← expectString value key
    return ⟨.leaf (.com comKind name), description⟩

/-! ## Counts -/

/-- One side of a range; a blank side is no bound. -/
def parseBound (side : String) (spec : List Char) : Except RuleError (Option UInt32) :=
  if spec.isEmpty then .ok none
  else do
    let v ← parseInt spec
    if v < 0 then .error (.invalid s!"range {side} less than zero")
    else if v < 2 ^ 32 then return some (UInt32.ofNat v.toNat)
    else .error (.invalid s!"range {side} out of range: {v}")

def parseRange (s : String) : Except RuleError (Option UInt32 × Option UInt32) :=
  if !startsWith "(" s || !endsWith ")" s then .error (.invalid s!"invalid range: {s}")
  else do
    let inner := (s.toList.drop 1).dropLast
    let (minSpec, maxSpec) := match splitOnce [','] inner with
      | some (a, b) => (trim a, trim b)
      | none => (trim inner, [])
    let min ← parseBound "min" minSpec
    let max ← parseBound "max" maxSpec
    match min, max with
    | some mn, some mx =>
      if mx < mn then .error (.invalid "range max less than min") else return (min, max)
    | _, _ => return (min, max)

def parseCountSpec : Value → Except RuleError (Option UInt32 × Option UInt32)
  | .number n =>
    match n.asU64 with
    | none => .error (.invalid s!"unexpected range: {Format.display n}")
    | some count =>
      if count < 2 ^ 32 then .ok (some (UInt32.ofNat count), some (UInt32.ofNat count))
      else .error (.invalid s!"count out of range: {count}")
  | .string s =>
    match CompiledRegex.stripSuffix " or more".toList s.toList with
    | some spec => do
      let n ← parseU32 (trim spec)
      return (some n, none)
    | none =>
      match CompiledRegex.stripSuffix " or fewer".toList s.toList with
      | some spec => do
        let n ← parseU32 (trim spec)
        return (none, some n)
      | none =>
        if startsWith "(" s then parseRange s
        else .error (.invalid s!"unexpected range: {s}")
  | other => .error (.invalid s!"unexpected range: {Format.debug other}")

/-- The term and the argument of `count(<term>[(<arg>)])`. -/
def countTerm (key : String) : Except RuleError (List Char × Option (List Char)) :=
  match (stripPrefix "count(".toList key.toList).bind (CompiledRegex.stripSuffix [')']) with
  | none => .error (.invalid s!"unexpected statement: {key}")
  | some inner =>
    match splitOnce ['('] inner with
    | none => .ok (inner, none)
    | some (term, rest) =>
      match CompiledRegex.stripSuffix [')'] rest with
      | none => .error (.invalid s!"unexpected statement: {key}")
      | some arg => .ok (term, some arg)

/-- The counted feature, with the description its argument may carry. -/
def countFeature [RegexBackend] (term : String) (arg : Option String) :
    Except RuleError (Feature × Option String) :=
  match arg with
  | none =>
    if term = "basic blocks" then .ok (.basicBlock, none)
    else .error (.invalid s!"count({term}) requires an argument")
  | some arg =>
    if term = "string" then do
      let feature ← stringFactory arg
      return (feature, none)
    else do
      let (value, description) ← parseDescription (.string arg) term none
      let value := match value with
        | .str s => if term = "api" then .str (trimDllPart s) else .str s
        | value => value
      let feature ← featureFromNamedValue term value
      return (feature, description)

def buildCount [RegexBackend] (key : String) (countValue : Value) (scopes : Scopes)
    (rangeDescription : Option String) : Except RuleError Node := do
  let (term, arg) ← countTerm key
  let (feature, description) ← countFeature (String.ofList term) (arg.map String.ofList)
  ensureFeatureValidForScopes scopes feature
  let (min, max) ← parseCountSpec countValue
  return ⟨.range feature (min.getD 0) max, rangeDescription.or description⟩

end Scalars

/-! ## Statements -/

/-- A `{description: ..}` entry of a list of children. -/
def isDescriptionEntry : Value → Bool
  | .mapping m => decide (m.length = 1) && Mapping.containsKey m "description"
  | _ => false

/-- `pop_statement_description_entry`: the children without the one description entry. -/
def popStatementDescriptionEntry [Format] (children : List Value) :
    Except RuleError (Option String × List Value) :=
  if 1 < children.countP isDescriptionEntry then
    .error (.invalid "statements can only have one description")
  else
    match children.find? isDescriptionEntry with
    | some (.mapping m) =>
      match Mapping.get m "description" with
      | some (.string s) => .ok (some s, children.eraseP isDescriptionEntry)
      | some other =>
        .error (.invalid s!"description must be a string, got: {Format.debug other}")
      | none => .ok (none, children.eraseP isDescriptionEntry)
    | _ => .ok (none, children)

/-- `unique_nodes`: a leaf whose feature equals an earlier leaf's is dropped. -/
def uniqueNodes : List Node → List Feature → List Node
  | [], _ => []
  | ⟨.leaf f, d⟩ :: rest, seen =>
    if seen.any fun sf => sf == f then uniqueNodes rest seen
    else ⟨.leaf f, d⟩ :: uniqueNodes rest (seen ++ [f])
  | n :: rest, seen => n :: uniqueNodes rest seen

section

variable [Format]

def asFeatureMapping : Value → Except RuleError Mapping
  | .mapping m => .ok m
  | other =>
    .error (.invalid s!"expected a feature/statement mapping, got: {Format.debug other}")

omit [Format] in
def requireSeq (seq : Option (List Value)) (key : String) : Except RuleError (List Value) :=
  match seq with
  | some children => .ok children
  | none => .error (.invalid s!"`{key}` must be a list of child statements")

/-- Build one child. -/
def buildChild (build : Mapping → Scopes → Except RuleError Node) (scopes : Scopes) (c : Value) :
    Except RuleError Node := do
  let m ← asFeatureMapping c
  build m scopes

def buildChildren (build : Mapping → Scopes → Except RuleError Node) (children : List Value)
    (scopes : Scopes) : Except RuleError (List Node) := do
  let built ← children.mapM (buildChild build scopes)
  return uniqueNodes built []

/-- The arms of `and`, `or`, `optional` and `N or more`. -/
def buildGroup (build : Mapping → Scopes → Except RuleError Node) (key : String)
    (make : List Node → Statement Node) (seq : Option (List Value)) (scopes : Scopes)
    (description : Option String) : Except RuleError Node := do
  let children ← requireSeq seq key
  let built ← buildChildren build children scopes
  return ⟨make built, description⟩

/-- The arm of `not`. -/
def buildNot (build : Mapping → Scopes → Except RuleError Node) (key : String)
    (seq : Option (List Value)) (scopes : Scopes) (description : Option String) :
    Except RuleError Node := do
  let children ← requireSeq seq key
  match children with
  | [child] => do
    let child ← buildChild build scopes child
    return ⟨.not child, description⟩
  | _ => .error (.invalid "not statement must have exactly one child statement")

/-- `build_subscope` -/
def buildSubscope (build : Mapping → Scopes → Except RuleError Node) (key : String) (scope : Scope)
    (seq : Option (List Value)) (checkAgainst : Option Scope) (incompatible : String)
    (description : Option String) : Except RuleError Node :=
  if !isSubscopeCompatible checkAgainst scope then .error (.invalid incompatible)
  else do
    let children ← requireSeq seq key
    match children with
    | [child] => do
      let body ← buildChild build (.ofSubscope scope) child
      return ⟨.subscope scope body, description⟩
    | _ => .error (.invalid "subscope must have exactly one child statement")

/-- `build_instruction_subscope`: more than one child, or none, is an implied `and`. -/
def buildInstructionSubscope (build : Mapping → Scopes → Except RuleError Node)
    (seq : Option (List Value)) (scopes : Scopes) (description : Option String) :
    Except RuleError Node :=
  if !isSubscopeCompatible scopes.static_ .instruction then
    .error (.invalid "`instruction` subscope supported only for `function` and `basic block` scope")
  else do
    let children ← requireSeq seq "instruction"
    let body ← (match children with
      | [child] => buildChild build (.ofSubscope .instruction) child
      | children => do
        let built ← buildChildren build children (.ofSubscope .instruction)
        return ⟨.and built, none⟩ : Except RuleError Node)
    return ⟨.subscope .instruction body, description⟩

variable [RegexBackend]

/-- The arm of `string`: only an explicit string is accepted. -/
def buildString (key : String) (d : Mapping) (raw : Value) (scopes : Scopes) :
    Except RuleError Node :=
  match raw with
  | .string _ => buildDefaultLeaf key d scopes
  | other => .error (.invalid s!"ambiguous string value {Format.debug other}, must be defined as explicit string")

/-- The arms of `build_statements` that are not chosen by the key alone. -/
def buildPatternKey (build : Mapping → Scopes → Except RuleError Node) (key : String) (d : Mapping)
    (raw : Value) (seq : Option (List Value)) (scopes : Scopes) (description : Option String) :
    Except RuleError Node :=
  if startsWith "count(" key && endsWith ")" key then do
    let sibling ← siblingDescription d
    buildCount key raw scopes sibling
  else if endsWith " or more" key then do
    let count ← parseU32 (trim (key.toList.take (key.toList.length - " or more".length)))
    buildGroup build key (.some count) seq scopes description
  else if startsWith "operand[" key && endsWith "].number" key then
    buildOperand key "].number" d scopes fun i v => .ok (.operandNumber i (.int v))
  else if startsWith "operand[" key && endsWith "].offset" key then
    buildOperand key "].offset" d scopes fun i v =>
      Feature.operandOffset i <$> tryI64 v "operand offset value out of range: "
  else if decide (key = "os") && !(valueAsPlainStr raw).any fun s => decide (s ∈ validOs) then
    .error (.invalid s!"unexpected os value {Format.debug raw}")
  else if decide (key = "format") && !(valueAsPlainStr raw).any fun s => decide (s ∈ validFormat) then
    .error (.invalid s!"unexpected format value {Format.debug raw}")
  else if decide (key = "arch") && !(valueAsPlainStr raw).any fun s => decide (s ∈ validArch) then
    .error (.invalid s!"unexpected arch value {Format.debug raw}")
  else if startsWith "property/" key then buildProperty key d raw scopes
  else if startsWith "com/" key then buildCom key d raw
  else buildDefaultLeaf key d scopes

/-- The dispatch on the key of `build_statements`. -/
def buildKey (build : Mapping → Scopes → Except RuleError Node) (key : String) (d : Mapping)
    (raw : Value) (seq : Option (List Value)) (scopes : Scopes) (description : Option String) :
    Except RuleError Node :=
  match key with
  | "and" => buildGroup build key .and seq scopes description
  | "or" => buildGroup build key .or seq scopes description
  | "not" => buildNot build key seq scopes description
  | "optional" => buildGroup build key (.some 0) seq scopes description
  | "process" => buildSubscope build key .process seq scopes.dynamic
      "`process` subscope supported only for `file` scope" description
  | "thread" => buildSubscope build key .thread seq scopes.dynamic
      "`thread` subscope supported only for the `process` scope" description
  | "span of calls" => buildSubscope build key .spanOfCalls seq scopes.dynamic
      "`span of calls` subscope supported only for the `process` and `thread` scopes"
      description
  | "call" => buildSubscope build key .call seq scopes.dynamic
      "`call` subscope supported only for the `process`, `thread`, and `call` scopes"
      description
  | "function" => buildSubscope build key .function seq scopes.static_
      "`function` subscope supported only for `file` scope" description
  | "basic block" => buildSubscope build key .basicBlock seq scopes.static_
      "`basic block` subscope supported only for `function` scope" description
  | "instruction" => buildInstructionSubscope build seq scopes description
  | "string" => buildString key d raw scopes
  | key => buildPatternKey build key d raw seq scopes description

/-- `build_statements` with the function that builds the children. -/
def buildNode (build : Mapping → Scopes → Except RuleError Node) (d : Mapping) (scopes : Scopes) :
    Except RuleError Node :=
  if 2 < d.length then .error (.invalid "too many statements")
  else
    match d with
    | [] => .error (.invalid "empty statement")
    | (keyValue, raw) :: _ =>
      match keyValue.asStr with
      | none => .error (.invalid "statement key must be a string")
      | some key =>
        match raw with
        | .sequence children => do
          let (description, children) ← popStatementDescriptionEntry children
          buildKey build key d raw (some children) scopes description
        | _ => buildKey build key d raw none scopes none

/-- At most `fuel` levels of children. -/
def buildLevels : Nat → Mapping → Scopes → Except RuleError Node
  | 0, _, _ => .error (.invalid "nested too deep")
  | fuel + 1, d, scopes => buildNode (buildLevels fuel) d scopes

/-- `build_statements`: no more levels than the document has. -/
def buildStatements (d : Mapping) (scopes : Scopes) : Except RuleError Node :=
  buildLevels (entriesDepth d + 1) d scopes

/-! ### The recursion -/

/-- Two ways to build children that agree on the mappings among `children`. -/
def AgreeOn (build build' : Mapping → Scopes → Except RuleError Node) (children : List Value) :
    Prop := ∀ m, .mapping m ∈ children → ∀ scopes, build m scopes = build' m scopes

variable {build build' : Mapping → Scopes → Except RuleError Node} {children : List Value}

omit [RegexBackend]

theorem buildChild_congr (h : AgreeOn build build' children) {c : Value} (hc : c ∈ children)
    (scopes : Scopes) : buildChild build scopes c = buildChild build' scopes c := by
  cases c with
  | mapping m => exact h m hc scopes
  | _ => rfl

theorem buildChildren_congr (h : AgreeOn build build' children) (scopes : Scopes) :
    buildChildren build children scopes = buildChildren build' children scopes := by
  have hmap : children.mapM (buildChild build scopes) =
      children.mapM (buildChild build' scopes) :=
    Control.mapM_congr fun c hc => buildChild_congr h hc scopes
  rw [buildChildren, buildChildren, hmap]

theorem popStatementDescriptionEntry_subset {p : Option String × List Value}
    (h : popStatementDescriptionEntry children = .ok p) {c : Value} (hc : c ∈ p.2) :
    c ∈ children := by
  unfold popStatementDescriptionEntry at h
  split at h
  · cases h
  · split at h
    · split at h
      · obtain rfl := Except.ok.inj h
        exact List.mem_of_mem_eraseP hc
      · cases h
      · obtain rfl := Except.ok.inj h
        exact List.mem_of_mem_eraseP hc
    · obtain rfl := Except.ok.inj h
      exact hc

theorem buildGroup_congr (h : AgreeOn build build' children) (key : String)
    (make : List Node → Statement Node) (scopes : Scopes) (description : Option String) :
    buildGroup build key make (some children) scopes description =
      buildGroup build' key make (some children) scopes description := by
  show (buildChildren build children scopes >>= fun built => pure (Node.mk (make built) _)) = _
  rw [buildChildren_congr h]
  rfl

theorem buildNot_congr (h : AgreeOn build build' children) (key : String) (scopes : Scopes)
    (description : Option String) :
    buildNot build key (some children) scopes description =
      buildNot build' key (some children) scopes description := by
  match children, h with
  | [], _ => rfl
  | [c], h =>
    show (buildChild build scopes c >>= fun child => pure (Node.mk (.not child) _)) = _
    rw [buildChild_congr h List.mem_cons_self]
    rfl
  | _ :: _ :: _, _ => rfl

theorem buildSubscope_congr (h : AgreeOn build build' children) (key : String) (scope : Scope)
    (against : Option Scope) (message : String) (description : Option String) :
    buildSubscope build key scope (some children) against message description =
      buildSubscope build' key scope (some children) against message description := by
  unfold buildSubscope
  split
  · rfl
  · match children, h with
    | [], _ => rfl
    | [c], h =>
      show (buildChild build (.ofSubscope scope) c >>= fun body =>
        pure (Node.mk (.subscope scope body) _)) = _
      rw [buildChild_congr h List.mem_cons_self]
      rfl
    | _ :: _ :: _, _ => rfl

theorem buildInstructionSubscope_congr (h : AgreeOn build build' children) (scopes : Scopes)
    (description : Option String) :
    buildInstructionSubscope build (some children) scopes description =
      buildInstructionSubscope build' (some children) scopes description := by
  unfold buildInstructionSubscope
  split
  · rfl
  · have hall := buildChildren_congr h (.ofSubscope .instruction)
    match children, h with
    | [], _ => rfl
    | [c], h =>
      show (buildChild build (.ofSubscope .instruction) c >>= fun body =>
        pure (Node.mk (.subscope .instruction body) _)) = _
      rw [buildChild_congr h List.mem_cons_self]
      rfl
    | _ :: _ :: _, _ =>
      show ((buildChildren build _ (.ofSubscope .instruction) >>= fun built =>
        pure (Node.mk (.and built) none)) >>= fun body => pure (Node.mk _ _)) = _
      rw [hall]
      rfl

variable [RegexBackend]

/-- The statement under a key depends on how the children of the key are built only. -/
theorem buildKey_congr (h : AgreeOn build build' children) (key : String) (d : Mapping)
    (raw : Value) (scopes : Scopes) (description : Option String) :
    buildKey build key d raw (some children) scopes description =
      buildKey build' key d raw (some children) scopes description := by
  unfold buildKey
  split
  · exact buildGroup_congr h _ _ _ _
  · exact buildGroup_congr h _ _ _ _
  · exact buildNot_congr h _ _ _
  · exact buildGroup_congr h _ _ _ _
  iterate 6 exact buildSubscope_congr h _ _ _ _ _
  · exact buildInstructionSubscope_congr h _ _
  · rfl
  · unfold buildPatternKey
    simp only [buildGroup_congr h]

/-- No statement without children builds any. -/
theorem buildKey_leaf (key : String) (d : Mapping) (raw : Value) (scopes : Scopes) :
    buildKey build key d raw none scopes none = buildKey build' key d raw none scopes none := by
  unfold buildKey
  split
  iterate 4 rfl
  iterate 7
    (first | unfold buildSubscope | unfold buildInstructionSubscope)
    split <;> rfl
  · rfl
  · rfl

theorem buildNode_congr {d : Mapping} (scopes : Scopes)
    (h : ∀ e ∈ d, ∀ children, e.2 = .sequence children → AgreeOn build build' children) :
    buildNode build d scopes = buildNode build' d scopes := by
  unfold buildNode
  split
  · rfl
  · split
    · rfl
    · split
      · rfl
      · split
        · next children _ =>
          have hchildren := h _ List.mem_cons_self children rfl
          cases hpop : popStatementDescriptionEntry children with
          | error e => rfl
          | ok p =>
            refine buildKey_congr (fun m hm => hchildren m ?_) _ _ _ _ _
            exact popStatementDescriptionEntry_subset hpop hm
        · exact buildKey_leaf _ _ _ _

/-- More levels than the document has change nothing. -/
theorem buildLevels_eq {n m : Nat} {d : Mapping} (hn : entriesDepth d < n)
    (hm : entriesDepth d < m) (scopes : Scopes) : buildLevels n d scopes = buildLevels m d scopes := by
  induction n generalizing m d scopes with
  | zero => exact absurd hn (Nat.not_lt_zero _)
  | succ n ih =>
    cases m with
    | zero => exact absurd hm (Nat.not_lt_zero _)
    | succ m =>
      refine buildNode_congr scopes fun e he children hchildren c hc scopes => ?_
      have hseq : e.2.depth ≤ entriesDepth d := depth_le_entriesDepth he
      have hchild : (Value.mapping c).depth ≤ listDepth children := depth_le_listDepth hc
      rw [hchildren, Value.depth] at hseq
      rw [Value.depth] at hchild
      exact ih (by omega) (by omega) scopes

/-- `buildStatements` is the fixed point: the bound on the levels never shows. -/
theorem buildStatements_eq (d : Mapping) (scopes : Scopes) :
    buildStatements d scopes = buildNode buildStatements d scopes := by
  refine buildNode_congr scopes fun e he children hchildren c hc scopes => ?_
  have hseq : e.2.depth ≤ entriesDepth d := depth_le_entriesDepth he
  have hchild : (Value.mapping c).depth ≤ listDepth children := depth_le_listDepth hc
  rw [hchildren, Value.depth] at hseq
  rw [Value.depth] at hchild
  exact buildLevels_eq (by omega) (by omega) scopes

end

end CapaX
