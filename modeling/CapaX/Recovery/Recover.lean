import CapaX.Recovery.Dispatch
import CapaX.Recovery.Views
import Mathlib.Data.Finset.Card

/-
  Recovery with the native walk (`analyze_seeded_image_with_signatures`, `recover_functions`): of
  every image under the native backend, and of an AArch64 image under either backend. Seeds are
  collected, functions are discovered from a queue of starts, late waves add more starts once, and
  passes repeat with the no-return set that the last one yields. What runs behind an architecture
  test of the source on x86 images only stands as functions given (`RecoveryPaths`).

  The wave for stack cookies logs each start it tests (`CookieTest`). The indexes of callers and
  callees and the order of the diagnostics, which no step reads, are left out.
-/

namespace CapaX.Recovery

open Collections Control Control.Logged

/-! ## Stack cookies -/

/-- A `security_check_cookie` signature: bytes, and the mask under which they are compared. -/
structure CookieSignature where
  bytes : List UInt8
  mask : List UInt8

/-- `SECURITY_CHECK_COOKIE_SIGNATURES`: two for 32 bits, three for 64. -/
def securityCheckCookieSignatures : List CookieSignature :=
  [⟨[0x3b, 0x0d, 0, 0, 0, 0, 0x75, 0x02, 0xf3, 0xc3, 0xe9],
    [0xff, 0xff, 0, 0, 0, 0, 0xff, 0xff, 0xff, 0xff, 0xff]⟩,
   ⟨[0x3b, 0x0d, 0, 0, 0, 0, 0xf2, 0x75, 0x02, 0xf2, 0xc3, 0xf2, 0xe9],
    [0xff, 0xff, 0, 0, 0, 0, 0xff, 0xff, 0xff, 0xff, 0xff, 0xff, 0xff]⟩,
   ⟨[0x48, 0x3b, 0x0d, 0, 0, 0, 0, 0x75, 0x11, 0x48, 0xc1, 0xc1, 0x10, 0x66, 0xf7, 0xc1, 0xff,
      0xff, 0x75, 0x02, 0xf3, 0xc3, 0x48, 0xc1, 0xc9, 0x10, 0xe9],
    [0xff, 0xff, 0xff, 0, 0, 0, 0] ++ List.replicate 20 0xff⟩,
   ⟨[0x48, 0x3b, 0x0d, 0, 0, 0, 0, 0xf2, 0x75, 0x11, 0x48, 0xc1, 0xc1, 0x10, 0x66, 0xf7, 0xc1,
      0xff, 0xff, 0xf2, 0x75, 0x02, 0xf2, 0xc3, 0x48, 0xc1, 0xc9, 0x10, 0xe9],
    [0xff, 0xff, 0xff, 0, 0, 0, 0] ++ List.replicate 22 0xff⟩,
   ⟨[0x48, 0x3b, 0x0d, 0, 0, 0, 0, 0xf2, 0x75, 0x12, 0x48, 0xc1, 0xc1, 0x10, 0x66, 0xf7, 0xc1,
      0xff, 0xff, 0xf2, 0x75, 0x02, 0xf2, 0xc3, 0x48, 0xc1, 0xc9, 0x10, 0xe9],
    [0xff, 0xff, 0xff, 0, 0, 0, 0] ++ List.replicate 22 0xff⟩]

def longestSignature : Nat := 29

def CookieSignature.matchesHead (signature : CookieSignature) (candidate : List UInt8) : Bool :=
  decide (signature.bytes.length ≤ candidate.length) &&
    ((candidate.zip signature.bytes).zip signature.mask).all fun ((actual, expected), mask) =>
      actual &&& mask == expected

variable {A : Architecture}

def isSecurityCheckCookie (image : LoadedImage A) (address : UInt64) : Bool :=
  (image.bytesAt address longestSignature).any fun candidate =>
    securityCheckCookieSignatures.any fun signature => signature.matchesHead candidate

/-- A start that the wave tests, with the analysis it is tested in. -/
structure CookieTest (A : Architecture) where
  analysis : Analysis A
  start : UInt64

/-! ## What is given -/

/-- The paths of x86 images; the test for AArch64 prologues, which reads the text of the
    disassembler; and the lower case of the strings. -/
structure RecoveryPaths (A : Architecture) where
  x86Seeds : X86Seeds (CookieTest A) A
  x86Switch : Switch.X86Switch (CookieTest A) A
  goRuntimeMain : Analysis A → Checked (CookieTest A) (Option UInt64)
  fragmentStarts : Analysis A → List UInt64
  newFunctionStarts : Analysis A → OrdSet UInt64 → Checked (CookieTest A) (List UInt64)
  isPrologueCandidate : UInt64 → Bool
  toLowercase : String → String

/-! ## The seeds of a pass -/

namespace SeedKind

def authoritative : List SeedKind :=
  [.entryPoint, .export, .tlsCallback, .safeSeh, .unwind, .symbol, .init, .fini, .initArray,
    .finiArray, .libcMain, .goRuntimeMain, .msvcCookieBlock, .machoFunctionStarts]

def heuristic : List SeedKind := [.functionSignature, .prologue, .sweepCallTarget]

end SeedKind

/-- `seed_priority` of a native walk. -/
def seedPriority (kinds : List SeedKind) : Nat :=
  if kinds.any fun kind => decide (kind ∈ SeedKind.authoritative) then 0
  else if SeedKind.callTarget ∈ kinds then 1
  else if SeedKind.sweepCallTarget ∈ kinds then 1
  else if SeedKind.prologue ∉ kinds ∧ SeedKind.functionSignature ∉ kinds then 2
  else 3

/-- The seeds in the order in which a pass takes them: by priority, then by address. -/
def initialStarts (seeds : SeedMap) : List UInt64 :=
  (List.range 4).flatMap fun priority =>
    (seeds.entries.filter fun entry => decide (seedPriority entry.2 = priority)).map (·.1)

def shouldIsolateOverlappingCandidate (fallback seeds : SeedMap) (start : UInt64)
    (alreadyDiscovered : Bool) : Bool :=
  alreadyDiscovered && !fallback.contains start &&
    (seeds.get? start).any fun kinds =>
      decide (.relocation ∈ kinds) && decide (.callTarget ∉ kinds) &&
        decide (.sweepCallTarget ∉ kinds) &&
        !kinds.any fun kind => decide (kind ∈ SeedKind.authoritative)

/-- The native backend drops emulated candidates, and relocations of x86 PE images that begin no
    function. A seed without a kind is none. -/
def retainSeed {ε : Type} (image : RecoveryImage A) (seeds : SeedMap)
    (seed : UInt64 × List SeedKind) : Checked ε SeedMap := do
  let kinds := seed.2.filter fun kind => decide (kind ≠ .emulated)
  let kinds ←
    if image.format = .pe ∧ (A = .x86 ∨ A = .x64) then do
      let kept ← plausibleRelocationFunction image seed.1
      pure (if kept then kinds else kinds.filter fun kind => decide (kind ≠ .relocation))
    else pure kinds
  pure (if kinds = [] then seeds else seeds.upsert seed.1 fun _ => kinds)

def retainSeeds {ε : Type} (image : RecoveryImage A) (backend : RecoveryBackend)
    (seeds : SeedMap) : Checked ε SeedMap :=
  if backend = .native then foldRun (retainSeed image) ∅ seeds.entries else pure seeds

def addBackendFallbackSeeds {ε : Type} (image : RecoveryImage A) (paths : X86Seeds ε A)
    (isPrologueCandidate : UInt64 → Bool) (backend : RecoveryBackend) : Checked ε SeedMap := do
  let seeds ←
    if backend = .native ∨ A = .aarch64 then
      addSweptCallSeeds image (addPrologueSeeds image paths isPrologueCandidate ∅)
    else pure ∅
  pure (addVivisectFunctionSignatureSeeds image paths seeds)

/-! ## One start -/

/-- What the loop of `recover_functions` carries. -/
structure Discovery (A : Architecture) where
  analysis : Analysis A
  pending : List UInt64
  functionStarts : OrdSet UInt64
  isolatedStarts : OrdSet UInt64
  lateWavesDone : Bool
  budgetReported : Bool

def maxFunctions : Nat := 100000

section

variable (paths : RecoveryPaths A) (fallback : SeedMap) (noreturn : OrdSet UInt64)

/-- Walk from a start: the analysis after it, and the callees in decreasing order. -/
def walkFrom (analysis : Analysis A) (start : UInt64) :
    Checked (CookieTest A) (Analysis A × List UInt64) := do
  let w ← Checked.discoverDirectFlow
    ⟨analysis.image, analysis.seeds, noreturn, paths.x86Switch⟩ analysis.graph start
  pure ({ analysis with graph := w.toFlowGraph }, w.calls.toList.reverse)

namespace Discovery

/-- Signatures only count in undefined space. -/
def skips (s : Discovery A) (start : UInt64) : Bool :=
  let lateSignatureOnly := (s.analysis.seeds.get? start).any fun kinds =>
    kinds.all fun kind => decide (kind ∈ [SeedKind.functionSignature, .prologue])
  decide (start ∈ s.functionStarts) ||
    (lateSignatureOnly && (s.analysis.graph.instructions.get? start).isSome) ||
    !s.analysis.image.isExecutableAddress start

/-- No more starts are taken; said once. -/
def reportBudget (s : Discovery A) (start : UInt64) : Discovery A :=
  if s.budgetReported then s
  else { s with
    budgetReported := true
    analysis := s.analysis.diagnose start
      ("stopped taking function starts at " ++ toString maxFunctions) }

def register (s : Discovery A) (start : UInt64) : Discovery A :=
  { s with
    isolatedStarts :=
      if shouldIsolateOverlappingCandidate fallback s.analysis.seeds start
          (s.analysis.graph.instructions.get? start).isSome then
        s.isolatedStarts.insert start
      else s.isolatedStarts
    functionStarts := s.functionStarts.insert start }

/-- A seed of heuristic kinds only. -/
def heuristicOnly (seeds : SeedMap) (target : UInt64) : Bool :=
  (seeds.get? target).any fun kinds => kinds.all fun kind => decide (kind ∈ SeedKind.heuristic)

/-- A callee is queued when it is new, or when only a heuristic found it before. The captured
    functions of `completed_functions` belong to the other walk. -/
def followCallee (s : Discovery A) (target : UInt64) : Discovery A :=
  if !s.analysis.image.isExecutableAddress target then s
  else
    let isNew := !s.analysis.seeds.contains target
    let queued := isNew || (decide (target ∉ s.functionStarts) &&
      heuristicOnly s.analysis.seeds target)
    { s with
      analysis := s.analysis.insertSeed target .callTarget
      pending := if queued then target :: s.pending else s.pending }

end Discovery

def takeStart (s : Discovery A) (start : UInt64) : Checked (CookieTest A) (Discovery A) :=
  if s.skips start then pure s
  else if maxFunctions ≤ s.functionStarts.card then pure (s.reportBudget start)
  else do
    let s := s.register fallback start
    let (analysis, calls) ← walkFrom paths noreturn s.analysis start
    pure (calls.foldl Discovery.followCallee { s with analysis := analysis })

/-! ## Late waves -/

/-- A late wave leaves the starts alone. -/
abbrev Queued (A : Architecture) : Type := Analysis A × List UInt64

/-- Queue a start in front. -/
def queueSeed (queued : Queued A) (start : UInt64) (kind : SeedKind) (always : Bool) : Queued A :=
  let isNew := !queued.1.seeds.contains start
  (queued.1.insertSeed start kind, if isNew || always then start :: queued.2 else queued.2)

def runGoRuntimeMainWave (queued : Queued A) : Checked (CookieTest A) (Queued A) :=
  if !isGoImage queued.1.image then pure queued
  else do
    match ← paths.goRuntimeMain queued.1 with
    | none => pure queued
    | some main =>
      pure (if queued.1.image.isExecutableAddress main then
        queueSeed queued main .goRuntimeMain false
      else queued)

/-- Walk one fragment, unless it is walked already; its callees become seeds, it does not. -/
def walkFragment (queued : Queued A) (start : UInt64) : Checked (CookieTest A) (Queued A) :=
  if (queued.1.graph.successors.get? start).isSome ||
      !queued.1.image.isExecutableAddress start then pure queued
  else do
    let (analysis, calls) ← walkFrom paths noreturn queued.1 start
    pure (calls.foldl (fun queued target =>
      if queued.1.image.isExecutableAddress target then
        queueSeed queued target .callTarget false
      else queued) (analysis, queued.2))

/-- `fragment_starts` finds none but in an x86 image of 32 bits. -/
def runImportCallWave (queued : Queued A) : Checked (CookieTest A) (Queued A) :=
  foldRun (walkFragment paths noreturn) queued
    (if A = .x86 then paths.fragmentStarts queued.1 else [])

/-- The cookie that the first instruction of a matching function compares with. -/
def cookieOf (analysis : Analysis A) (start : UInt64) :
    Checked (CookieTest A) (Option UInt64) := do
  emit ⟨analysis, start⟩
  if !isSecurityCheckCookie analysis.image.toLoadedImage start then pure none
  else
    match analysis.graph.instructions.get? start with
    | none => pure none
    | some insn => do
      let op ← insn.x86Instruction
      let kinds := analysis.image.opKinds op
      pure (if kinds.length ≠ 2 ∨ kinds[1]? ≠ some .memory then none else insn.memoryTarget)

/-- Split off the blocks that refer to a cookie. -/
def runMsvcCookieWave (functionStarts : OrdSet UInt64) (queued : Queued A) :
    Checked (CookieTest A) (Queued A) :=
  if queued.1.image.format ≠ .pe then pure queued
  else do
    let cookies ← foldRun (fun cookies start => do
      let found ← cookieOf queued.1 start
      pure (found.elim cookies fun cookie => OrdSet.insert cookies cookie)) ∅
      functionStarts.toList
    if cookies = ∅ then pure queued
    else do
      let starts ← paths.newFunctionStarts queued.1 cookies
      pure (starts.foldl (fun queued start =>
        if decide (start ∈ functionStarts) || !queued.1.image.isExecutableAddress start then
          queued
        else queueSeed queued start .msvcCookieBlock true) queued)

/-- Add the names of a GOT slot to the stub that loads it. -/
def addStubNames (image : RecoveryImage A) (stub : UInt64 × List String) : RecoveryImage A :=
  { image with
    externalBindings := image.externalBindings.upsert stub.1 fun old =>
      stub.2.foldl (fun bindings name =>
        if name ∈ bindings then bindings else bindings ++ [name]) (old.getD [])
    importLocations := match stub.2 with
      | [] => image.importLocations
      | name :: _ => image.importLocations.upsert stub.1 fun old => old.getD ("*." ++ name) }

def runAarch64PltWave (analysis : Analysis A) : Analysis A :=
  if A ≠ .aarch64 then analysis
  else
    let resolved := analysis.graph.instructions.entries.filterMap fun (address, first) => do
      let second ← analysis.graph.instructions.get? first.nextAddress
      let target ← aarch64PltGotTarget analysis.image.toLoadedImage ⟨address, first⟩
        ⟨first.nextAddress, second⟩
      let names ← analysis.image.externalBindings.get? target
      some (address, names)
    { analysis with image := resolved.foldl addStubNames analysis.image }

def lateWaves (functionStarts : OrdSet UInt64) (queued : Queued A) :
    Checked (CookieTest A) (Queued A) := do
  let queued ← runGoRuntimeMainWave paths queued
  let queued ← runImportCallWave paths noreturn queued
  let queued ← runMsvcCookieWave paths functionStarts queued
  pure (runAarch64PltWave queued.1, queued.2)

/-! ## A pass -/

/-- One turn of the loop, on the left, or its end. -/
def discoverTurn (s : Discovery A) :
    Checked (CookieTest A) (Discovery A ⊕ Discovery A) :=
  match s.pending with
  | [] =>
    if s.lateWavesDone then pure (.inr s)
    else do
      let (analysis, pending) ← lateWaves paths noreturn s.functionStarts (s.analysis, [])
      pure (.inl { s with analysis := analysis, pending := pending, lateWavesDone := true })
  | start :: pending => do
    let s ← takeStart paths fallback noreturn { s with pending := pending } start
    pure (.inl s)

end

/-! ## The loop ends -/

/-- A callee found here may still be queued. -/
def isOpen (seeds : SeedMap) (address : UInt64) : Bool :=
  !seeds.contains address || Discovery.heuristicOnly seeds address

def openAddresses (seeds : SeedMap) : Finset Nat :=
  (Finset.range (2 ^ 64)).filter fun i => isOpen seeds (UInt64.ofNat i) = true

theorem isOpen_insertKind (seeds : SeedMap) (target address : UInt64) :
    isOpen (seeds.insertKind target .callTarget) address =
      (decide (address ≠ target) && isOpen seeds address) := by
  unfold isOpen SeedMap.contains Discovery.heuristicOnly SeedMap.insertKind
  rw [OrdMap.get?_upsert]
  by_cases h : address = target
  · -- a call target is no heuristic seed
    have hcall : SeedKind.callTarget ∈ ((seeds.get? target).getD []).insert .callTarget :=
      List.mem_insert_self
    have hall : (((seeds.get? target).getD []).insert .callTarget).all
        (fun kind => decide (kind ∈ SeedKind.heuristic)) = false :=
      List.all_eq_false.mpr ⟨_, hcall, by decide⟩
    rw [if_pos h, Option.any_some, hall]
    simp [h]
  · simp [h]

theorem openAddresses_insertKind (seeds : SeedMap) (target : UInt64) :
    openAddresses (seeds.insertKind target .callTarget) =
      (openAddresses seeds).erase target.toNat := by
  ext i
  simp only [openAddresses, Finset.mem_filter, Finset.mem_erase, Finset.mem_range,
    isOpen_insertKind, Bool.and_eq_true, decide_eq_true_eq]
  have hsame (hi : i < 2 ^ 64) : UInt64.ofNat i = target ↔ i = target.toNat := by
    constructor
    · rintro rfl
      exact (UInt64.toNat_ofNat_of_lt hi).symm
    · rintro rfl
      exact UInt64.ofNat_toNat
  constructor
  · rintro ⟨hi, hne, hopen⟩
    exact ⟨fun he => hne ((hsame hi).mpr he), hi, hopen⟩
  · rintro ⟨hne, hi, hopen⟩
    exact ⟨hi, fun he => hne ((hsame hi).mp he), hopen⟩

theorem mem_openAddresses {seeds : SeedMap} {address : UInt64} (h : isOpen seeds address = true) :
    address.toNat ∈ openAddresses seeds := by
  refine Finset.mem_filter.mpr ⟨Finset.mem_range.mpr address.toNat_lt, ?_⟩
  rw [UInt64.ofNat_toNat]
  exact h

namespace Discovery

/-- The turns left before the queue is empty. -/
def work (s : Discovery A) : Nat := s.pending.length + (openAddresses s.analysis.seeds).card

/-- The late waves run once. -/
def rank (s : Discovery A) : Nat × Nat := (if s.lateWavesDone then 0 else 1, s.work)

/-- A queued callee is open no more. -/
theorem followCallee_work (s : Discovery A) (target : UInt64) :
    (s.followCallee target).work ≤ s.work ∧
      (s.followCallee target).lateWavesDone = s.lateWavesDone := by
  unfold followCallee
  by_cases hexec : (!s.analysis.image.isExecutableAddress target) = true
  · rw [if_pos hexec]
    exact ⟨le_rfl, rfl⟩
  · rw [if_neg hexec]
    refine ⟨?_, rfl⟩
    unfold work Analysis.insertSeed
    dsimp only
    rw [openAddresses_insertKind]
    split
    · next hqueued =>
      have hopen : isOpen s.analysis.seeds target = true := by
        unfold isOpen
        rcases Bool.or_eq_true_iff.mp hqueued with hnew | hagain
        · rw [hnew]
          rfl
        · rw [(Bool.and_eq_true_iff.mp hagain).2, Bool.or_true]
      have hcard := Finset.card_erase_add_one (mem_openAddresses hopen)
      rw [List.length_cons]
      omega
    · have hcard := Finset.card_erase_le (s := openAddresses s.analysis.seeds)
        (a := target.toNat)
      omega

theorem foldl_followCallee_work (calls : List UInt64) (s : Discovery A) :
    (calls.foldl followCallee s).work ≤ s.work ∧
      (calls.foldl followCallee s).lateWavesDone = s.lateWavesDone := by
  induction calls generalizing s with
  | nil => exact ⟨le_rfl, rfl⟩
  | cons target calls ih =>
    obtain ⟨hwork, hdone⟩ := s.followCallee_work target
    obtain ⟨hwork', hdone'⟩ := ih (s.followCallee target)
    exact ⟨hwork'.trans hwork, hdone'.trans hdone⟩

end Discovery

section

variable {paths : RecoveryPaths A} {fallback : SeedMap} {noreturn : OrdSet UInt64}

theorem walkFrom_seeds {analysis : Analysis A} {start : UInt64} {found : Analysis A × List UInt64}
    (h : (walkFrom paths noreturn analysis start).outcome = .ok found) :
    found.1.seeds = analysis.seeds := by
  obtain ⟨w, -, hfound⟩ := outcome_bind.mp h
  rw [← Except.ok.inj hfound]

theorem takeStart_work {s s' : Discovery A} {start : UInt64}
    (h : (takeStart paths fallback noreturn s start).outcome = .ok s') :
    s'.work ≤ s.work ∧ s'.lateWavesDone = s.lateWavesDone := by
  unfold takeStart at h
  split at h
  · rw [← Except.ok.inj h]
    exact ⟨le_rfl, rfl⟩
  · split at h
    · rw [← Except.ok.inj h]
      unfold Discovery.reportBudget
      split <;> exact ⟨le_rfl, rfl⟩
    · obtain ⟨found, hwalk, hrest⟩ := outcome_bind.mp h
      have hseeds := walkFrom_seeds hwalk
      rw [← Except.ok.inj hrest]
      obtain ⟨hwork, hdone⟩ := Discovery.foldl_followCallee_work found.2
        { s.register fallback start with analysis := found.1 }
      refine ⟨hwork.trans ?_, hdone⟩
      show s.pending.length + (openAddresses found.1.seeds).card ≤ _
      rw [hseeds]
      exact le_rfl

theorem discoverTurn_rank (s s' : Discovery A)
    (h : (discoverTurn paths fallback noreturn s).outcome = .ok (.inl s')) :
    WellFoundedRelation.rel s'.rank s.rank := by
  unfold discoverTurn at h
  split at h
  · next hpending =>
    split at h
    · cases h
    · next hdone =>
      obtain ⟨found, -, hrest⟩ := outcome_bind.mp h
      rw [← Sum.inl.inj (Except.ok.inj hrest)]
      refine Prod.Lex.left _ _ ?_
      rw [if_neg hdone]
      exact Nat.zero_lt_one
  · next start pending hpending =>
    obtain ⟨next, htake, hrest⟩ := outcome_bind.mp h
    obtain ⟨hwork, hdone⟩ := takeStart_work htake
    rw [← Sum.inl.inj (Except.ok.inj hrest)]
    unfold Discovery.rank
    rw [hdone]
    refine Prod.Lex.right _ ?_
    show next.work < s.work
    have hpopped : Discovery.work { s with pending := pending } + 1 = s.work := by
      show pending.length + (openAddresses s.analysis.seeds).card + 1 =
        s.pending.length + (openAddresses s.analysis.seeds).card
      rw [hpending, List.length_cons]
      omega
    omega

end

/-! ## Passes -/

section

variable (paths : RecoveryPaths A) (fallback : SeedMap) (noreturn : OrdSet UInt64)

/-- The view of each start; a start with too many instructions is dropped. -/
def materialize (s : Discovery A) : Analysis A :=
  s.functionStarts.toList.foldl (fun analysis start =>
    match buildFunctionView analysis start (decide (start ∈ s.isolatedStarts)) with
    | .ok function =>
      { analysis with functions := analysis.functions.upsert start fun _ => function }
    | .error message => analysis.diagnose start ("dropped oversized function: " ++ message))
    { s.analysis with functions := ∅ }

/-- `recover_functions`: the analysis of one pass and the no-return set for the next. -/
def recoverFunctions (analysis : Analysis A) :
    Checked (CookieTest A) (Analysis A × OrdSet UInt64) := do
  let s ← iterate Discovery.rank (discoverTurn paths fallback noreturn)
    discoverTurn_rank ⟨analysis, initialStarts analysis.seeds, ∅, ∅, false, false⟩
  let recovered := materialize s
  pure (recovered, propagate recovered (seedAddresses paths.toLowercase recovered.image))

end

def maxPasses : Nat := 6

/-- The passes; each starts over but for the names that the last one gave to stubs. -/
def recoverPasses (paths : RecoveryPaths A) (seeds fallback : SeedMap)
    (diagnostics : List RecoveryDiagnostic) :
    Nat → OrdSet UInt64 → RecoveryImage A → Checked (CookieTest A) (Analysis A)
  | 0, noreturn, image =>
    pure ⟨image, seeds, { FlowGraph.empty with diagnostics := diagnostics }, ∅, noreturn⟩
  | passes + 1, noreturn, image => do
    let (recovered, next) ← recoverFunctions paths fallback noreturn
      ⟨image, seeds, { FlowGraph.empty with diagnostics := diagnostics }, ∅, ∅⟩
    if next = noreturn ∨ passes = 0 then pure { recovered with noreturn := noreturn }
    else recoverPasses paths seeds fallback diagnostics passes next recovered.image

/-- `analyze_image`: the container's tables name the seeds, the loader the diagnostics. -/
def analyzeImage (paths : RecoveryPaths A) (backend : RecoveryBackend) (image : RecoveryImage A)
    (tables : List (UInt64 × SeedKind)) (diagnostics : List RecoveryDiagnostic) :
    Checked (CookieTest A) (Analysis A) := do
  let collected ← collectSeeds image paths.x86Seeds tables
  let retained ← retainSeeds image backend collected
  let fallback ← addBackendFallbackSeeds image paths.x86Seeds paths.isPrologueCandidate backend
  recoverPasses paths (retained.extend fallback) fallback diagnostics maxPasses
    (seedAddresses paths.toLowercase image) image

end CapaX.Recovery
