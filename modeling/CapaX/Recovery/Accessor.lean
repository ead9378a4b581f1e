import CapaX.Recovery.Recover

/-
  Where the recovery of an AArch64 image asks an instruction for its x86 detail. Collecting seeds
  and walking flow never do: what they run is silent, and every arm of the walk is that of the walk
  without the accessor (`followFlow_eq`). Two steps do. The sweep of a PE asks every
  executable call target that decodes (`plausibleSweepFunction`), and the cookie wave asks the
  first instruction of a function whose bytes match a signature (`cookieOf`); neither tests the
  architecture. `analyzeImage_returns_iff`: recovery returns when, and only when, neither of the
  two finds such an instruction.
-/

namespace CapaX.Recovery

open Collections Control Control.Logged

variable {ε : Type} {paths : RecoveryPaths .aarch64} {image : RecoveryImage .aarch64}

/-! ## The walk is silent -/

/-- The arms of a guarded switch, when the image takes them all. -/
def Switch.acceptedArms (view : SwitchView .aarch64) (branch : Located .aarch64) :
    Option (List UInt64) :=
  match guardedSequence view branch with
  | some (compare :: guard :: body) => do
    let arms ← armTargets view compare guard body
    if arms.all (acceptsArm view compare branch) then some (OrdSet.ofList arms).toList else none
  | _ => none

theorem Switch.targets_eq (view : SwitchView .aarch64) (x86Targets : X86Switch ε .aarch64)
    (branch : Located .aarch64) :
    targets view x86Targets branch = pure (acceptedArms view branch) := by
  unfold targets acceptedArms
  generalize guardedSequence view branch = sequence
  rcases sequence with _ | _ | ⟨compare, _ | ⟨guard, body⟩⟩
  · rfl
  · rfl
  · rfl
  · dsimp only
    rw [if_pos rfl]
    rfl

namespace Checked

theorem isPointerJump_eq (insn : DecodedInstruction .aarch64) :
    (isPointerJump insn : Checked ε Bool) = pure insn.isPointerJump := if_neg fun h => h.1 rfl

theorem jumpTableTargets_eq (image : LoadedImage .aarch64) (insn : DecodedInstruction .aarch64) :
    (jumpTableTargets image insn : Checked ε (List UInt64)) =
      pure (Recovery.jumpTableTargets image insn) := by
  have hscan : (scanJumpTable image insn fun _ _ => true : Checked ε (List UInt64)) =
      pure (Recovery.scanJumpTable image insn fun _ _ => true) := by
    unfold scanJumpTable Recovery.scanJumpTable
    cases insn.memoryTarget with
    | none => rfl
    | some base =>
      have hindex : (isUnlabelledIndex insn : Checked ε Bool) = pure false :=
        if_neg fun h => h rfl
      dsimp only
      rw [hindex, isPointerJump_eq]
      rfl
  unfold jumpTableTargets
  rw [hscan]
  rfl

variable (inputs : Inputs ε .aarch64)

/-- What the walk reads at an indirect branch. -/
def Inputs.flowAt (address : UInt64) : FlowInputs .aarch64 :=
  ⟨inputs.image.toLoadedImage, inputs.knownNoreturn, [], fun graph insn =>
    Switch.acceptedArms ⟨inputs.image, inputs.seeds, graph⟩ ⟨address, insn⟩⟩

/-- On AArch64 each arm is the arm of the plain walk. -/
theorem followFlow_eq (address : UInt64) (insn : DecodedInstruction .aarch64)
    (pending : List UInt64) (w : Walk .aarch64) :
    followFlow inputs address insn pending w =
      pure (Recovery.followFlow (inputs.flowAt address) address insn pending w) := by
  unfold followFlow
  by_cases hflow : insn.flow = .indirectBranch
  · have hplain : Recovery.followFlow (inputs.flowAt address) address insn pending w =
        Recovery.followIndirectBranch (inputs.flowAt address) address insn pending w := by
      unfold Recovery.followFlow
      rw [hflow]
    rw [if_pos hflow, hplain]
    unfold followIndirectBranch Recovery.followIndirectBranch
    by_cases hslot : insn.memoryTarget.any inputs.image.isImportSlot = true
    · rw [if_pos hslot]
      exact congrArg pure (if_pos hslot).symm
    · rw [if_neg hslot]
      refine Eq.trans ?_ (congrArg pure (if_neg hslot).symm)
      rw [Switch.targets_eq]
      have hpointer : insn.isPointerJump = false := rfl
      have hfound : (inputs.flowAt address).switchTargets w.toFlowGraph insn =
          Switch.acceptedArms ⟨inputs.image, inputs.seeds, w.toFlowGraph⟩ ⟨address, insn⟩ := rfl
      rw [hfound]
      cases Switch.acceptedArms ⟨inputs.image, inputs.seeds, w.toFlowGraph⟩ ⟨address, insn⟩ with
      | none =>
        simp only [pure_bind, jumpTableTargets_eq, isPointerJump_eq, hpointer, Option.getD_none,
          Bool.false_eq_true, and_false, if_false]
        split
        · next hnone => exact congrArg pure (if_pos hnone).symm
        · next hsome => exact congrArg pure (if_neg hsome).symm
      | some targets =>
        simp only [pure_bind, isPointerJump_eq, hpointer, Option.getD_some, Bool.false_eq_true,
          and_false, if_false]
        split <;> rfl
  · rw [if_neg hflow]
    unfold Recovery.followFlow
    cases h : insn.flow with
    | indirectBranch => exact absurd h hflow
    | _ => rfl

theorem followFlow_silent (address : UInt64) (insn : DecodedInstruction .aarch64)
    (pending : List UInt64) (w : Walk .aarch64) :
    Silent (followFlow inputs address insn pending w) :=
  ⟨_, followFlow_eq inputs address insn pending w⟩

theorem runTasks_silent {start : UInt64}
    {rest : Option (List UInt64 → Walk .aarch64 → Checked ε (Outcome .aarch64))}
    (hrest : ∀ continue_ ∈ rest, ∀ queue w, Silent (continue_ queue w)) (pending : List UInt64)
    (w : Walk .aarch64) : Silent (runTasks inputs start rest pending w) := by
  induction pending generalizing w with
  | nil => exact silent_pure _
  | cons address pending ih =>
    unfold runTasks
    split
    · exact ih w
    · cases rest with
      | none => exact silent_pure _
      | some continue_ =>
        dsimp only
        split
        · exact ih _
        · split
          · exact ih _
          · refine (followFlow_silent inputs _ _ _ _).bind fun next => ?_
            exact hrest continue_ rfl next.1 next.2

theorem discoverFlow_silent (start : UInt64) (budget : Nat) (pending : List UInt64)
    (w : Walk .aarch64) : Silent (discoverFlow inputs start budget pending w) := by
  induction budget generalizing pending w with
  | zero => exact runTasks_silent inputs (fun _ h => absurd h (Option.not_mem_none _)) pending w
  | succ budget ih =>
    refine runTasks_silent inputs (fun continue_ h queue w => ?_) pending w
    obtain rfl := Option.some.inj h
    exact ih queue w

theorem discoverDirectFlow_silent (graph : FlowGraph .aarch64) (start : UInt64) :
    Silent (discoverDirectFlow inputs graph start) := by
  refine (discoverFlow_silent inputs _ _ _ _).bind fun outcome => ?_
  cases outcome with
  | finished w => exact silent_pure w
  | abandoned w => exact silent_pure w

end Checked

/-! ## The sweep -/

/-- What the sweep of an image finds to ask: an executable call target that decodes. -/
def SweepReaches (image : RecoveryImage .aarch64) (seeds : SeedMap) : Prop :=
  sweeps image seeds = true ∧ ∃ target ∈ sweptTargets image,
    image.isExecutableAddress target = true ∧ ∃ insn, image.decodeAt target = .ok insn

theorem sweepTarget_silent {target : UInt64}
    (h : image.isExecutableAddress target = true → ∀ insn, image.decodeAt target ≠ .ok insn) :
    Silent (sweepTarget image target : Checked ε Bool) := by
  unfold sweepTarget plausibleSweepFunction
  split
  · next hexec =>
    cases hdecode : image.decodeAt target with
    | error message => exact silent_pure false
    | ok insn => exact absurd hdecode (h hexec insn)
  · exact silent_pure false

theorem sweepTarget_unreturned {target : UInt64} {insn : DecodedInstruction .aarch64}
    (hexec : image.isExecutableAddress target = true) (hdecode : image.decodeAt target = .ok insn) :
    ¬(sweepTarget image target : Checked ε Bool).Returns := by
  unfold sweepTarget plausibleSweepFunction
  rw [if_pos hexec, hdecode]
  rintro ⟨found, hfound⟩
  cases hfound

theorem addSweptCallSeeds_silent {seeds : SeedMap} (h : ¬SweepReaches image seeds) :
    Silent (addSweptCallSeeds image seeds : Checked ε SeedMap) := by
  unfold addSweptCallSeeds
  split
  · next hsweeps =>
    refine Silent.bind (silent_foldRun (fun references target htarget => ?_) ∅) fun _ =>
      silent_pure _
    refine (sweepTarget_silent fun hexec insn hdecode => ?_).bind fun _ => silent_pure _
    exact h ⟨hsweeps, target, htarget, hexec, insn, hdecode⟩
  · exact silent_pure seeds

theorem addSweptCallSeeds_unreturned {seeds : SeedMap} (h : SweepReaches image seeds) :
    ¬(addSweptCallSeeds image seeds : Checked ε SeedMap).Returns := by
  obtain ⟨hsweeps, target, htarget, hexec, insn, hdecode⟩ := h
  unfold addSweptCallSeeds
  rw [if_pos hsweeps]
  rintro ⟨seeds', hout⟩
  obtain ⟨references, hrun, -⟩ := outcome_bind.mp hout
  exact not_returns_foldRun htarget
    (fun _ hreturns => sweepTarget_unreturned hexec hdecode hreturns.of_bind) ∅ ⟨references, hrun⟩

/-! ## The cookie wave -/

/-- The wave asks the first instruction of the start. -/
def CookieTest.Reaches (test : CookieTest .aarch64) : Prop :=
  isSecurityCheckCookie test.analysis.image.toLoadedImage test.start = true ∧
    (test.analysis.graph.instructions.get? test.start).isSome = true

abbrev Unreached (test : CookieTest .aarch64) : Prop := ¬test.Reaches

theorem cookieOf_exact (analysis : Analysis .aarch64) (start : UInt64) :
    Exact Unreached (cookieOf analysis start) := by
  unfold cookieOf
  cases hmatch : isSecurityCheckCookie analysis.image.toLoadedImage start with
  | false =>
    refine exact_emit rfl (iff_of_true ⟨none, rfl⟩ fun h => ?_)
    rw [CookieTest.Reaches, hmatch] at h
    exact Bool.false_ne_true h.1
  | true =>
    cases hget : analysis.graph.instructions.get? start with
    | none =>
      refine exact_emit rfl (iff_of_true ⟨none, rfl⟩ fun h => ?_)
      rw [CookieTest.Reaches, hget] at h
      exact Bool.false_ne_true h.2
    | some insn =>
      refine exact_emit rfl (iff_of_false ?_ fun h => h ⟨hmatch, ?_⟩)
      · rintro ⟨found, hfound⟩
        cases hfound
      · rw [hget]
        rfl

/-- No AArch64 function has a cookie. -/
theorem cookieOf_eq_none {analysis : Analysis .aarch64} {start : UInt64} {found : Option UInt64}
    (h : (cookieOf analysis start).outcome = .ok found) : found = none := by
  unfold cookieOf at h
  obtain ⟨-, -, h⟩ := outcome_bind.mp h
  split at h
  · exact (Except.ok.inj h).symm
  · split at h
    · exact (Except.ok.inj h).symm
    · cases h

theorem runMsvcCookieWave_exact (functionStarts : OrdSet UInt64) (queued : Queued .aarch64) :
    Exact Unreached (runMsvcCookieWave paths functionStarts queued) := by
  unfold runMsvcCookieWave
  split
  · exact exact_pure queued
  · refine Exact.bind (exact_foldRun (fun cookies start => ?_) ∅ _) fun cookies hcookies => ?_
    · exact (cookieOf_exact _ _).bind fun _ _ => exact_pure _
    · have hempty : cookies = ∅ := by
        refine foldRun_inv (I := fun cookies => cookies = ∅) (fun cookies start next hnone h => ?_)
          rfl hcookies
        obtain ⟨found, hfound, hnext⟩ := outcome_bind.mp h
        rw [← Except.ok.inj hnext, cookieOf_eq_none hfound]
        exact hnone
      rw [if_pos hempty]
      exact exact_pure queued

/-! ## Recovery -/

section

variable {fallback : SeedMap} {noreturn : OrdSet UInt64}

theorem walkFrom_silent (analysis : Analysis .aarch64) (start : UInt64) :
    Silent (walkFrom paths noreturn analysis start) :=
  (Checked.discoverDirectFlow_silent _ _ _).bind fun _ => silent_pure _

theorem takeStart_silent (s : Discovery .aarch64) (start : UInt64) :
    Silent (takeStart paths fallback noreturn s start) := by
  unfold takeStart
  split
  · exact silent_pure s
  · split
    · exact silent_pure _
    · exact (walkFrom_silent _ _).bind fun _ => silent_pure _

theorem lateWaves_exact (functionStarts : OrdSet UInt64) (queued : Queued .aarch64) :
    Exact Unreached (lateWaves paths noreturn functionStarts queued) := by
  have hgo : Silent (runGoRuntimeMainWave paths queued) := by
    have hnot : isGoImage queued.1.image = false := by simp [isGoImage]
    unfold runGoRuntimeMainWave
    rw [hnot]
    exact silent_pure queued
  refine hgo.exact.bind fun queued _ => ?_
  have hcalls : Silent (runImportCallWave paths noreturn queued) := silent_pure queued
  refine hcalls.exact.bind fun queued _ => ?_
  exact (runMsvcCookieWave_exact functionStarts queued).bind fun _ _ => exact_pure _

theorem discoverTurn_exact (s : Discovery .aarch64) :
    Exact Unreached (discoverTurn paths fallback noreturn s) := by
  unfold discoverTurn
  split
  · split
    · exact exact_pure _
    · exact (lateWaves_exact _ _).bind fun _ _ => exact_pure _
  · exact (takeStart_silent _ _).exact.bind fun _ _ => exact_pure _

theorem recoverFunctions_exact (analysis : Analysis .aarch64) :
    Exact Unreached (recoverFunctions paths fallback noreturn analysis) :=
  (exact_iterate discoverTurn_exact _).bind fun _ _ => exact_pure _

end

theorem recoverPasses_exact (seeds fallback : SeedMap) (diagnostics : List RecoveryDiagnostic)
    (passes : Nat) (noreturn : OrdSet UInt64) (image : RecoveryImage .aarch64) :
    Exact Unreached (recoverPasses paths seeds fallback diagnostics passes noreturn image) := by
  induction passes generalizing noreturn image with
  | zero => exact exact_pure _
  | succ passes ih =>
    refine (recoverFunctions_exact _).bind fun found _ => ?_
    obtain ⟨recovered, next⟩ := found
    dsimp only
    split
    · exact exact_pure _
    · exact ih _ _

theorem collectSeeds_silent (paths : X86Seeds ε .aarch64) (tables : List (UInt64 × SeedKind)) :
    Silent (collectSeeds image paths tables) := by
  have hmain : Silent (mainAddress image paths) := by
    unfold mainAddress
    split
    · exact silent_pure none
    · exact silent_pure none
  exact hmain.bind fun _ => silent_pure _

theorem retainSeeds_silent (backend : RecoveryBackend) (seeds : SeedMap) :
    Silent (retainSeeds image backend seeds : Checked ε SeedMap) := by
  unfold retainSeeds
  split
  · refine silent_foldRun (fun kept seed _ => ?_) ∅
    unfold retainSeed
    rw [if_neg fun h => h.2.elim nofun nofun]
    exact silent_pure _
  · exact silent_pure seeds

/-- Recovery of an AArch64 image returns, whatever its bytes, under either backend, if and only if
    the sweep has nothing to ask and no tested start does. -/
theorem analyzeImage_returns_iff (paths : RecoveryPaths .aarch64) (backend : RecoveryBackend)
    (image : RecoveryImage .aarch64) (tables : List (UInt64 × SeedKind))
    (diagnostics : List RecoveryDiagnostic) :
    (analyzeImage paths backend image tables diagnostics).Returns ↔
      ¬SweepReaches image (addPrologueSeeds image paths.x86Seeds paths.isPrologueCandidate ∅) ∧
        ∀ test ∈ (analyzeImage paths backend image tables diagnostics).log, ¬test.Reaches := by
  by_cases hsweep :
      SweepReaches image (addPrologueSeeds image paths.x86Seeds paths.isPrologueCandidate ∅)
  · refine iff_of_false (fun h => ?_) fun h => h.1 hsweep
    obtain ⟨analysis, hout⟩ := h
    obtain ⟨collected, -, hout⟩ := outcome_bind.mp hout
    obtain ⟨retained, -, hout⟩ := outcome_bind.mp hout
    obtain ⟨fallback, hfallback, -⟩ := outcome_bind.mp hout
    unfold addBackendFallbackSeeds at hfallback
    rw [if_pos (Or.inr rfl)] at hfallback
    exact addSweptCallSeeds_unreturned hsweep (Returns.of_bind ⟨fallback, hfallback⟩)
  · have hfallback : Silent (addBackendFallbackSeeds image paths.x86Seeds
        paths.isPrologueCandidate backend : Checked (CookieTest .aarch64) SeedMap) := by
      unfold addBackendFallbackSeeds
      rw [if_pos (Or.inr rfl)]
      exact (addSweptCallSeeds_silent hsweep).bind fun _ => silent_pure _
    have hexact : Exact Unreached (analyzeImage paths backend image tables diagnostics) :=
      (collectSeeds_silent _ _).exact.bind fun collected _ =>
        (retainSeeds_silent _ collected).exact.bind fun retained _ =>
          hfallback.exact.bind fun fallback _ => recoverPasses_exact _ _ _ _ _ _
    exact hexact.trans (and_iff_right hsweep).symm

/-- An AArch64 PE whose code begins with the bytes of an x86 call of itself. The first word is no
    recognized instruction. -/
def selfCallingImage : RecoveryImage .aarch64 where
  sections := [⟨0x1000, 8, ⟨true, false, true⟩⟩]
  externalBindings := ∅
  uninitialized := []
  mappedBytes := [[0xe8, 0xfb, 0xff, 0xff, 0xff, 0xff, 0xff, 0xff]]
  decodeAt address :=
    if 0x1000 ≤ address ∧ address ≤ 0x1004 then .ok ⟨address + 4, .next, none, none, ⟨none⟩⟩
    else .error "address is not mapped"
  format := .pe
  entryPoint := some 0x1000
  sectionFiles := [(".text", 8)]
  importLocations := ∅
  primaryCode := [(0x1000, 0x2000)]
  deadData := []
  elfPltRanges := []
  opKinds _ := []

/-- No x86 path finds anything. -/
def plainPaths : RecoveryPaths .aarch64 where
  x86Seeds := ⟨fun _ => pure none, fun _ => [], fun _ => []⟩
  x86Switch _ _ _ _ := pure none
  goRuntimeMain _ := pure none
  fragmentStarts _ := []
  newFunctionStarts _ _ := pure []
  isPrologueCandidate _ := false
  toLowercase := String.toLower

/-- The sweep runs into the `unreachable!` arm. -/
theorem analyzeImage_unreachable :
    (analyzeImage plainPaths .native selfCallingImage [] []).outcome =
        .error ⟨"x86_instruction() called on an AArch64 DecodedInstruction"⟩ ∧
      ¬(analyzeImage plainPaths .native selfCallingImage [] []).Returns := by
  have hout : (analyzeImage plainPaths .native selfCallingImage [] []).outcome =
      .error ⟨"x86_instruction() called on an AArch64 DecodedInstruction"⟩ := by
    rfl
  refine ⟨hout, ?_⟩
  rintro ⟨analysis, h⟩
  rw [hout] at h
  cases h

end CapaX.Recovery
