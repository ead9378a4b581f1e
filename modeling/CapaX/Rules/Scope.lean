import Mathlib.Data.List.Basic

/-
  Scopes (`rules/scope.rs`): the nine scopes, the pair of a static and a dynamic scope a rule
  has, and which subscopes may stand in a rule of which scope.
-/

namespace CapaX

inductive Scope where
  | file
  | process
  | thread
  | spanOfCalls
  | call
  | function
  | basicBlock
  | instruction
  | global
  deriving DecidableEq, Repr

namespace Scope

def asStr : Scope → String
  | file => "file"
  | process => "process"
  | thread => "thread"
  | spanOfCalls => "span of calls"
  | call => "call"
  | function => "function"
  | basicBlock => "basic block"
  | instruction => "instruction"
  | global => "global"

/-- Every scope, in the order of the declaration. -/
def all : List Scope :=
  [file, process, thread, spanOfCalls, call, function, basicBlock, instruction, global]

def parse (s : String) : Option Scope := all.find? fun scope => scope.asStr = s

/-- Parsing a scope's own name gives the scope back. -/
theorem parse_asStr (s : Scope) : parse s.asStr = some s := by
  cases s <;> decide

end Scope

/-- `STATIC_SCOPES` -/
def staticScopes : List Scope := [.file, .global, .function, .basicBlock, .instruction]

/-- `DYNAMIC_SCOPES` -/
def dynamicScopes : List Scope := [.file, .global, .process, .thread, .spanOfCalls, .call]

/-- `STATIC_SCOPE_ORDER` -/
def staticScopeOrder : List Scope := [.file, .function, .basicBlock, .instruction]

/-- `DYNAMIC_SCOPE_ORDER` -/
def dynamicScopeOrder : List Scope := [.file, .process, .thread, .spanOfCalls, .call]

/-- The scopes a rule is matched at, one for each flavour it supports. -/
structure Scopes where
  static_ : Option Scope
  dynamic : Option Scope
  deriving DecidableEq, Repr

namespace Scopes

/-- `Scopes::contains` does not ask for the flavour. -/
def contains (s : Scopes) (scope : Scope) : Bool :=
  decide (s.static_ = some scope) || decide (s.dynamic = some scope)

/-- The scopes a subscope of kind `scope` puts its body in. -/
def ofSubscope (scope : Scope) : Scopes :=
  match scope with
  | .process | .thread | .spanOfCalls | .call => ⟨none, some scope⟩
  | _ => ⟨some scope, none⟩

theorem contains_ofSubscope {s t : Scope} : (ofSubscope s).contains t = true ↔ t = s := by
  cases s <;> cases t <;> decide

end Scopes

/-- `is_subscope_compatible`: the subscope is at or below the scope, in the subscope's flavour. -/
def isSubscopeCompatible (scope : Option Scope) (subscope : Scope) : Bool :=
  match scope with
  | none => false
  | some scope =>
    if subscope ∈ staticScopeOrder then
      decide (scope ∈ staticScopeOrder ∧
        staticScopeOrder.idxOf scope ≤ staticScopeOrder.idxOf subscope)
    else if subscope ∈ dynamicScopeOrder then
      decide (scope ∈ dynamicScopeOrder ∧
        dynamicScopeOrder.idxOf scope ≤ dynamicScopeOrder.idxOf subscope)
    else false

end CapaX
