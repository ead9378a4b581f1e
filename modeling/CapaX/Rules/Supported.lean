import CapaX.Rules.Rule

/-
  Which features a rule of which scope may use (`rules/scope.rs`): the kinds of features, the
  table `SUPPORTED_FEATURES` with its propagation between the scopes, and the check of one
  feature against a pair of scopes.
-/

namespace CapaX

open Yaml

/-- The kind of a feature, without its value. -/
inductive FeatureKind where
  | matchedRule
  | export_
  | import_
  | section_
  | functionName
  | stringFamily
  | bytes
  | api
  | number
  | offset
  | mnemonic
  | operandNumber
  | operandOffset
  | class_
  | namespace_
  | property
  | os
  | arch
  | format
  | basicBlock
  deriving DecidableEq, Repr

/-- Characteristics are checked by value, COM features not at all. -/
def featureKind : Feature → Option FeatureKind
  | .api _ => some .api
  | .string _ => some .stringFamily
  | .bytes _ => some .bytes
  | .number _ => some .number
  | .offset _ => some .offset
  | .operandNumber _ _ => some .operandNumber
  | .operandOffset _ _ => some .operandOffset
  | .mnemonic _ => some .mnemonic
  | .characteristic _ => none
  | .section_ _ => some .section_
  | .import_ _ => some .import_
  | .export_ _ => some .export_
  | .functionName _ => some .functionName
  | .class_ _ => some .class_
  | .namespace_ _ => some .namespace_
  | .property _ _ => some .property
  | .os _ => some .os
  | .arch _ => some .arch
  | .format _ => some .format
  | .com _ _ => none
  | .matchedRule _ => some .matchedRule
  | .basicBlock => some .basicBlock

structure ScopeFeatures where
  kinds : List FeatureKind
  characteristics : List String

namespace ScopeFeatures

def merge (a b : ScopeFeatures) : ScopeFeatures :=
  ⟨a.kinds ++ b.kinds, a.characteristics ++ b.characteristics⟩

/-- The features a scope has on its own. -/
def base : Scope → ScopeFeatures
  | .global => ⟨[.os, .arch, .format], []⟩
  | .file =>
    ⟨[.matchedRule, .export_, .import_, .section_, .functionName, .stringFamily, .class_,
      .namespace_], ["embedded pe", "mixed mode", "forwarded export"]⟩
  | .process => ⟨[.matchedRule], []⟩
  | .thread => ⟨[], []⟩
  | .spanOfCalls => ⟨[], []⟩
  | .call => ⟨[.matchedRule, .stringFamily, .api, .number], []⟩
  | .function =>
    ⟨[.matchedRule, .basicBlock], ["calls from", "calls to", "loop", "recursive call"]⟩
  | .basicBlock => ⟨[.matchedRule], ["tight loop", "stack string"]⟩
  | .instruction =>
    ⟨[.matchedRule, .api, .property, .number, .stringFamily, .bytes, .offset, .mnemonic,
      .operandNumber, .operandOffset, .class_, .namespace_],
      ["nzxor", "peb access", "fs access", "gs access", "indirect call", "call $+5",
        "cross section flow", "unmanaged call"]⟩

/-- The features of a scope and the global ones. -/
def withGlobal (scope : Scope) : ScopeFeatures := (base scope).merge (base .global)

end ScopeFeatures

/-- `SUPPORTED_FEATURES`: a scope also has the features of the scopes below it, except that a
    file has its own and the global ones only. -/
def supportedFeatures : Scope → ScopeFeatures
  | .global => .base .global
  | .file => .withGlobal .file
  | .call => .withGlobal .call
  | .spanOfCalls => (ScopeFeatures.withGlobal .spanOfCalls).merge (.withGlobal .call)
  | .thread =>
    (ScopeFeatures.withGlobal .thread).merge
      ((ScopeFeatures.withGlobal .spanOfCalls).merge (.withGlobal .call))
  | .process =>
    (ScopeFeatures.withGlobal .process).merge
      ((ScopeFeatures.withGlobal .thread).merge
        ((ScopeFeatures.withGlobal .spanOfCalls).merge (.withGlobal .call)))
  | .instruction => .withGlobal .instruction
  | .basicBlock => (ScopeFeatures.withGlobal .basicBlock).merge (.withGlobal .instruction)
  | .function =>
    (ScopeFeatures.withGlobal .function).merge
      ((ScopeFeatures.withGlobal .basicBlock).merge (.withGlobal .instruction))

/-! ## Texts -/

/-- The `{:?}` of a scope. -/
def Scope.debug : Scope → String
  | .file => "File"
  | .process => "Process"
  | .thread => "Thread"
  | .spanOfCalls => "SpanOfCalls"
  | .call => "Call"
  | .function => "Function"
  | .basicBlock => "BasicBlock"
  | .instruction => "Instruction"
  | .global => "Global"

def debugOption : Option Scope → String
  | none => "None"
  | some scope => "Some(" ++ scope.debug ++ ")"

/-- The `{:?}` of a pair of scopes. -/
def Scopes.debug (s : Scopes) : String :=
  "Scopes " ++ String.singleton '{' ++ " static_: " ++ debugOption s.static_ ++ ", dynamic: " ++
    debugOption s.dynamic ++ " " ++ String.singleton '}'

section

variable [Format]

def NumberValue.display : NumberValue → String
  | .int v => toString v
  | .float v => Format.displayF64 v

/-- The `{}` of a feature. -/
def Feature.display : Feature → String
  | .api v => "api(" ++ v ++ ")"
  | .string (.plain v) => "string(" ++ v ++ ")"
  | .string (.substring v) => "substring(" ++ v ++ ")"
  | .string (.regex re) => "regex(string =~ " ++ re.raw ++ ")"
  | .bytes _ => "bytes"
  | .number v => "number(" ++ v.display ++ ")"
  | .offset v => "offset(" ++ toString v ++ ")"
  | .operandNumber i v => "operand[" ++ toString i ++ "].number(" ++ v.display ++ ")"
  | .operandOffset i v => "operand[" ++ toString i ++ "].offset(" ++ toString v ++ ")"
  | .mnemonic v => "mnemonic(" ++ v ++ ")"
  | .characteristic v => "characteristic(" ++ v ++ ")"
  | .section_ v => "section(" ++ v ++ ")"
  | .import_ v => "import(" ++ v ++ ")"
  | .export_ v => "export(" ++ v ++ ")"
  | .functionName v => "function-name(" ++ v ++ ")"
  | .class_ v => "class(" ++ v ++ ")"
  | .namespace_ v => "namespace(" ++ v ++ ")"
  | .property name (some a) => "property/" ++ a.asStr ++ "(" ++ name ++ ")"
  | .property name none => "property(" ++ name ++ ")"
  | .os v => "os(" ++ v ++ ")"
  | .arch v => "arch(" ++ v ++ ")"
  | .format v => "format(" ++ v ++ ")"
  | .com .class_ v => "com/class(" ++ v ++ ")"
  | .com .interface v => "com/interface(" ++ v ++ ")"
  | .matchedRule v => "match(" ++ v ++ ")"
  | .basicBlock => "basic block"

/-! ## The check -/

/-- The scopes a pair names. -/
def Scopes.toList (s : Scopes) : List Scope := s.static_.toList ++ s.dynamic.toList

/-- A characteristic is looked up by its value, another feature by its kind. -/
def supports (scopes : Scopes) (feature : Feature) : Bool :=
  let tables := scopes.toList.map supportedFeatures
  match feature with
  | .characteristic value => tables.any fun sf => decide (value ∈ sf.characteristics)
  | feature =>
    match featureKind feature with
    | none => true
    | some kind => tables.any fun sf => decide (kind ∈ sf.kinds)

def ensureFeatureValidForScopes (scopes : Scopes) (feature : Feature) : Except RuleError Unit :=
  if supports scopes feature then .ok ()
  else .error (.invalid s!"feature {feature.display} not supported for scopes {scopes.debug}")

end

/-- A feature is legal for a pair of scopes exactly when one of the two supports it. -/
theorem supports_iff {scopes : Scopes} {feature : Feature} {kind : FeatureKind}
    (hk : featureKind feature = some kind) :
    supports scopes feature = true ↔
      ∃ scope, scopes.contains scope = true ∧ kind ∈ (supportedFeatures scope).kinds := by
  have hlist : ∀ scope, scope ∈ scopes.toList ↔ scopes.contains scope = true := by
    intro scope
    unfold Scopes.toList Scopes.contains
    rw [List.mem_append, Option.mem_toList, Option.mem_toList,
      Bool.or_eq_true, decide_eq_true_eq, decide_eq_true_eq]
  have hsupports : supports scopes feature =
      (scopes.toList.map supportedFeatures).any fun sf => decide (kind ∈ sf.kinds) := by
    unfold supports
    split
    · cases hk
    · rw [hk]
  rw [hsupports, List.any_map, List.any_eq_true]
  constructor
  · intro ⟨scope, hs, hkind⟩
    exact ⟨scope, (hlist scope).mp hs, of_decide_eq_true hkind⟩
  · intro ⟨scope, hs, hkind⟩
    exact ⟨scope, (hlist scope).mpr hs, decide_eq_true hkind⟩

end CapaX
