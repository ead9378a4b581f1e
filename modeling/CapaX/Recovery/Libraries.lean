import CapaX.Control.Stateful
import CapaX.Recovery.Flow
import CapaX.Recovery.Seeds
import CapaX.Recovery.Signatures
import Mathlib.Data.String.Basic

/-
  Recognizing library functions by FLIRT signatures (`flirt.rs`): every recovered function is
  matched against the databases in order, references of a signature are validated by matching the
  functions they lead to, and the names of the chosen signature are applied at their offsets. The
  order in which the signature library returns several matches is its own (`reorder`, without a
  value when it panics). A run logs the names it is about to apply, and every map it records.
-/

namespace CapaX.Recovery

open Collections Control

variable {A : Architecture}

/-! ## Inputs -/

structure RecoveredInstruction where
  bytes : List UInt8
  nextAddress : UInt64

/-- What recognition reads of an analysis. A function is the list of its blocks' instructions. -/
structure LibraryView (A : Architecture) where
  image : RecoveryImage A
  functions : OrdMap UInt64 (List (List RecoveredInstruction))
  functionOrder : OrdMap UInt64 Nat
  functionAnalysisCounts : OrdMap UInt64 Nat
  functionFlirtCounts : OrdMap UInt64 Nat
  functionLocationCounts : OrdMap UInt64 Nat
  instructions : OrdMap UInt64 RecoveredInstruction
  instructionOrder : OrdMap UInt64 Nat
  codeXrefs : Xrefs
  dataXrefs : Xrefs

structure SignatureDatabase where
  path : String
  matcher : SignatureMatcher

/-- What one invocation on a function and a database reads. -/
structure MatcherContext (A : Architecture) where
  analysis : LibraryView A
  database : SignatureDatabase
  codeXrefsFrom : Option Xrefs
  dataXrefsFrom : Option Xrefs
  functionOrder : Nat
  locationCount : Nat
  reorder : List FlirtSignature → List UInt8 → Option (List FlirtSignature)

inductive FlirtError where
  | matchPanic (path : String) (address : UInt64)
  | missingRootName (path : String) (address : UInt64)
  deriving DecidableEq

def matchWindow : Nat := 0x10000

def rootName (candidate : FlirtSignature) : Option String :=
  candidate.names.findSome? fun symbol =>
    match symbol with
    | .public name | .local name | .reference name =>
      if name.offset = 0 then some name.name else none

def indexXrefsBySource (index : Xrefs) : Xrefs :=
  index.entries.foldl (fun bySource entry => entry.2.foldl (fun bySource source =>
    bySource.upsert source fun old => old.getD [] ++ [entry.1]) bySource) ∅

namespace MatcherContext

variable (ctx : MatcherContext A)

def isFunction (address : UInt64) : Bool := (ctx.analysis.functions.get? address).isSome

def functionExists (address : UInt64) : Bool :=
  ctx.isFunction address &&
    (ctx.analysis.functionOrder.get? address).all fun order => decide (order ≤ ctx.functionOrder)

def containingInstruction (address : UInt64) : Option UInt64 := do
  let (start, instruction) ←
    (ctx.analysis.instructions.entries.takeWhile fun entry => decide (entry.1 ≤ address)).getLast?
  let stop ← checkedAdd start instruction.bytes.length
  if address < stop then some start else none

/-- The extent of a function as its instructions give it. -/
def functionSize (address : UInt64) : Nat :=
  (((ctx.analysis.functions.get? address).getD []).flatten.filterMap fun instruction =>
    (checkedSub instruction.nextAddress address).map UInt64.toNat).foldl max 0

def windowAt (address : UInt64) : Option (List UInt8) :=
  ctx.analysis.image.bytesAt address (max matchWindow (ctx.functionSize address))

/-- The signatures that match in full, several of them in the signature library's order. -/
def candidates (bytes : List UInt8) : Option (List FlirtSignature) :=
  let matched := ctx.database.matcher.match bytes
  if matched.length < 2 then some matched else ctx.reorder matched bytes

/-! ### References -/

/-- The instruction that a reference of a signature falls into. -/
def referenceInstruction (functionAddress : UInt64) (reference : Name) : Option UInt64 := do
  if reference.offset < 0 then none
  let address ← checkedAdd functionAddress reference.offset.toInt.toNat
  let start ← ctx.containingInstruction address
  if (ctx.analysis.instructionOrder.get? start).all fun order => decide (order < ctx.locationCount)
  then some start else none

def hasDataReference (source : UInt64) : Bool :=
  match ctx.dataXrefsFrom with
  | some index => (index.get? source).isSome
  | none => ctx.analysis.dataXrefs.entries.any fun entry => decide (source ∈ entry.2)

def codeTargets (source : UInt64) : List UInt64 :=
  match ctx.codeXrefsFrom with
  | some index => (index.get? source).getD []
  | none => (ctx.analysis.codeXrefs.entries.filter fun entry => decide (source ∈ entry.2)).map (·.1)

/-! ### Names -/

/-- The address a name stands for. -/
def namedAddress (base : UInt64) (name : Name) : Option UInt64 :=
  if 0 ≤ name.offset then checkedAdd base name.offset.toInt.toNat
  else if name.offset = Int64.minValue then none
  else checkedSub base (UInt64.ofInt (-name.offset.toInt))

/-- A local name starts a function where no code was recovered. -/
def startsFunction (address : UInt64) : Bool :=
  !ctx.functionExists address && (ctx.containingInstruction address).isNone &&
    ctx.analysis.image.isExecutableAddress address

/-- Whether an address takes a name that a signature matched at `base` gives it. -/
def accepts (base : UInt64) («local» : Bool) (address : UInt64) : Bool :=
  ctx.functionExists address ||
    (ctx.isFunction address && (ctx.analysis.functionOrder.get? address).any fun order =>
      (ctx.analysis.functionAnalysisCounts.get? base).any fun count => decide (order < count)) ||
    («local» && ctx.isFunction address &&
      ((ctx.containingInstruction address).bind ctx.analysis.instructionOrder.get?).any fun order =>
        decide (ctx.locationCount ≤ order))

/-- The names a signature applies: the local ones, then the public ones. -/
def appliedNames (signature : FlirtSignature) : List (Name × Bool) :=
  (signature.names.filterMap fun symbol =>
    match symbol with
    | .local name => some (name, true)
    | _ => none) ++
  signature.names.filterMap fun symbol =>
    match symbol with
    | .public name => some (name, false)
    | _ => none

end MatcherContext

/-! ## Matching -/

inductive CacheEntry where
  | visiting
  | complete (name : Option String)
  deriving DecidableEq

structure MatcherState where
  recognized : OrdMap UInt64 String
  cache : OrdMap UInt64 CacheEntry
  localStarts : OrdSet UInt64

/-- A signature whose names are about to be applied, with what is recognized and remembered before. -/
structure Naming (A : Architecture) where
  ctx : MatcherContext A
  base : UInt64
  signature : FlirtSignature
  recognized : OrdMap UInt64 String
  cache : OrdMap UInt64 CacheEntry

inductive NameEvent (A : Architecture) where
  | applying (naming : Naming A)
  | recorded (recognized : OrdMap UInt64 String)

/-- How a run stops: an error, or no fuel for a recursion that the source does not bound. -/
inductive Stop where
  | error (e : FlirtError)
  | outOfFuel
  deriving DecidableEq

abbrev MatchRun (A : Architecture) (α : Type) := Run MatcherState Stop (NameEvent A) α

namespace MatcherContext

variable (ctx : MatcherContext A)

def remember (address : UInt64) (entry : CacheEntry) : MatchRun A Unit :=
  modify fun s => { s with cache := s.cache.upsert address fun _ => entry }

/-- `self.recognized.insert`. -/
def recognize (address : UInt64) (name : String) : MatchRun A Unit := do
  modify fun s => { s with recognized := s.recognized.upsert address fun _ => name }
  let s ← get
  Run.emit (.recorded s.recognized)

def applyName (base : UInt64) (entry : Name × Bool) : MatchRun A Unit :=
  match namedAddress base entry.1 with
  | none => pure ()
  | some address => do
    if entry.2 && ctx.startsFunction address then
      modify fun s => { s with localStarts := s.localStarts.insert address }
    if ctx.accepts base entry.2 address then do
      recognize address entry.1.name
      remember address (.complete (some entry.1.name))

def applyNames (base : UInt64) (signature : FlirtSignature) : MatchRun A Unit := do
  let s ← get
  Run.emit (.applying ⟨ctx, base, signature, s.recognized, s.cache⟩)
  Run.forEach (ctx.applyName base) (appliedNames signature)

/-- Whether one of the targets is named as a reference says. -/
def anyNamed (matchTarget : UInt64 → MatchRun A (Option String)) (name : String) :
    List UInt64 → MatchRun A Bool
  | [] => pure false
  | target :: targets => do
    let found ← matchTarget target
    if found = some name then pure true else anyNamed matchTarget name targets

def referencesMatch (matchTarget : UInt64 → MatchRun A (Option String)) (functionAddress : UInt64) :
    List Symbol → MatchRun A Bool
  | [] => pure true
  | .reference reference :: symbols =>
    match ctx.referenceInstruction functionAddress reference with
    | none => pure false
    | some source =>
      if reference.name = "." then
        if ctx.hasDataReference source then referencesMatch matchTarget functionAddress symbols
        else pure false
      else do
        let matched ← anyNamed matchTarget reference.name (ctx.codeTargets source)
        if matched then referencesMatch matchTarget functionAddress symbols else pure false
  | _ :: symbols => referencesMatch matchTarget functionAddress symbols

/-- Apply the only root name of the valid candidates, and remember what the function is called. -/
def concludeMatch (address : UInt64) (valid : List FlirtSignature) :
    MatchRun A (Option String) :=
  match valid.mapM rootName with
  | none => Run.fail (.error (.missingRootName ctx.database.path address))
  | some rootNames => do
    let names := OrdSet.ofList rootNames
    let name := if names.card = 1 then names.toList.head? else none
    match name.bind fun n => valid.find? fun candidate => rootName candidate = some n with
    | some candidate => ctx.applyNames address candidate
    | none => pure ()
    let s ← get
    let result := (s.recognized.get? address).or name
    remember address (.complete result)
    pure result

/-- Match a function by the bytes at its address. -/
def matchBytes (matchTarget : UInt64 → MatchRun A (Option String)) (address : UInt64) :
    MatchRun A (Option String) :=
  match ctx.windowAt address with
  | none => do
    remember address (.complete none)
    pure none
  | some bytes =>
    match ctx.candidates bytes with
    | none => Run.fail (.error (.matchPanic ctx.database.path address))
    | some candidates => do
      let valid ← Run.keepIf (fun candidate => ctx.referencesMatch matchTarget address candidate.names)
        candidates
      ctx.concludeMatch address valid

def matchFunction : Nat → UInt64 → MatchRun A (Option String)
  | 0, _ => Run.fail .outOfFuel
  | fuel + 1, address => do
    let s ← get
    match s.recognized.get? address with
    | some name => pure (some name)
    | none =>
      if ctx.functionExists address then
        match s.cache.get? address with
        | some .visiting => pure none
        | some (.complete name) => pure name
        | none => do
          remember address .visiting
          matchBytes ctx (matchFunction fuel) address
      else pure none

end MatcherContext

/-! ## All functions -/

section

variable (analysis : LibraryView A)
  (reorder : List FlirtSignature → List UInt8 → Option (List FlirtSignature))

/-- The key by which functions are matched: when they were analyzed, the later discovered first. -/
def matchKey (address : UInt64) : Nat × Nat × UInt64 :=
  let order := (analysis.functionOrder.get? address).getD usizeMax
  ((analysis.functionAnalysisCounts.get? address).getD order, order, address)

def matchesBefore (a b : Nat × Nat × UInt64) : Prop :=
  a.1 < b.1 ∨ a.1 = b.1 ∧ (b.2.1 < a.2.1 ∨ a.2.1 = b.2.1 ∧ a.2.2 ≤ b.2.2)

instance (a b : Nat × Nat × UInt64) : Decidable (matchesBefore a b) :=
  inferInstanceAs (Decidable (_ ∨ _))

def matchOrder : List UInt64 :=
  analysis.functions.keys.insertionSort fun a b =>
    matchesBefore (matchKey analysis a) (matchKey analysis b)

def contextFor (address : UInt64) (database : SignatureDatabase) : MatcherContext A where
  analysis := analysis
  database := database
  codeXrefsFrom := some (indexXrefsBySource analysis.codeXrefs)
  dataXrefsFrom := some (indexXrefsBySource analysis.dataXrefs)
  functionOrder := (((analysis.functionFlirtCounts.get? address).map fun count => count - 1).or
    (analysis.functionOrder.get? address)).getD usizeMax
  locationCount := (analysis.functionLocationCounts.get? address).getD usizeMax
  reorder := reorder

/-- Try the databases in order until one recognizes the function. -/
def tryDatabases (fuel : Nat) (address : UInt64) : List SignatureDatabase → MatchRun A Unit
  | [] => pure ()
  | database :: databases => do
    let s ← get
    if (s.recognized.get? address).isSome then pure ()
    else do
      modify fun s => { s with cache := ∅ }
      let _ ← (contextFor analysis reorder address database).matchFunction fuel address
      tryDatabases fuel address databases

def identifyWithLocalStarts (databases : List SignatureDatabase) :
    MatchRun A (OrdMap UInt64 String × OrdSet UInt64) :=
  if analysis.image.format ≠ .pe ∨ databases.isEmpty then pure (∅, ∅)
  else do
    Run.forEach (fun address =>
      tryDatabases analysis reorder (analysis.functions.keys.length + 1) address databases)
      (matchOrder analysis)
    let s ← get
    pure (s.recognized, s.localStarts)

/-- A whole run, from nothing recognized. -/
def identify (databases : List SignatureDatabase) :
    Logged Stop (NameEvent A) ((OrdMap UInt64 String × OrdSet UInt64) × MatcherState) :=
  identifyWithLocalStarts analysis reorder databases ⟨∅, ∅, ∅⟩

end

end CapaX.Recovery
