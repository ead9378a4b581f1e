import CapaX.Recovery.Closure
import CapaX.Recovery.Views

/-
  Function views against the flow they are cut from (`build_function_view`). Reachability goes
  along recorded edges, but blocks are rebuilt by walking from one instruction to the next in
  memory, so the two agree when every instruction that does not end a block has its fallthrough
  recorded. A suppressed call has not: `faithful_iff`.
-/

namespace CapaX.Recovery

open Collections Graphs.Worklist

variable {A : Architecture}

/-! ## What native discovery records -/

def Outcome.graph : Outcome A → FlowGraph A
  | .finished w => w.toFlowGraph
  | .abandoned w => w.toFlowGraph

/-- The graphs that walks of an image leave, one after the other, whatever their starts, the known
    no-return addresses and the recognizer of switches. -/
inductive Walked (image : LoadedImage A) : FlowGraph A → Prop
  | empty : Walked image .empty
  | walk {inputs : FlowInputs A} {graph : FlowGraph A} (start : UInt64) (h : Walked image graph)
    (himage : inputs.image = image) : Walked image (discoverDirectFlow inputs graph start).graph

/-- An instruction that does not end a block has one successor, the next address, unless it is a
    suppressed call, which has none. -/
structure Stored (graph : FlowGraph A) : Prop where
  together : ∀ a, (graph.successors.get? a).isSome = (graph.instructions.get? a).isSome
  suppressed : ∀ a ∈ graph.noreturnCalls, graph.successors.get? a = some [] ∧
    ∀ insn, graph.instructions.get? a = some insn → isBlockTerminator insn.flow = false
  falls : ∀ a insn, graph.instructions.get? a = some insn → isBlockTerminator insn.flow = false →
    a ∉ graph.noreturnCalls →
    graph.successors.get? a = some [⟨insn.nextAddress, .fallthrough⟩]

theorem stored_empty : Stored (FlowGraph.empty : FlowGraph A) where
  together _ := rfl
  suppressed a ha := absurd ha (OrdSet.not_mem_empty a)
  falls _ _ h := by
    rw [FlowGraph.empty, OrdMap.get?_empty] at h
    cases h

section

variable {inputs : FlowInputs A} {address : UInt64} {insn : DecodedInstruction A}
  {pending : List UInt64} {w w' : Walk A}

/-- The edges of an instruction, and whether it joins the suppressed calls. -/
inductive Adds (address : UInt64) (insn : DecodedInstruction A) (w w' : Walk A) :
    List Edge → Prop
  | terminator {edges : List Edge} (hflow : isBlockTerminator insn.flow = true)
    (hcalls : w'.noreturnCalls = w.noreturnCalls) : Adds address insn w w' edges
  | falls (hflow : isBlockTerminator insn.flow = false)
    (hcalls : w'.noreturnCalls = w.noreturnCalls) :
    Adds address insn w w' [⟨insn.nextAddress, .fallthrough⟩]
  | suppressed (hflow : isBlockTerminator insn.flow = false)
    (hcalls : w'.noreturnCalls = w.noreturnCalls.insert address) : Adds address insn w w' []

variable (address insn w w') in
/-- An arm of the walk records the edges of the instruction and touches no other edge. -/
def Enlarges : Prop :=
  w'.instructions = w.instructions ∧ ∃ edges, Adds address insn w w' edges ∧
    w'.successors = w.successors.upsert address fun _ => edges

theorem enlarges_setSuccessors {edges : List Edge} (hinsns : w'.instructions = w.instructions)
    (hsuccs : w'.successors = w.successors) (h : Adds address insn w w' edges) :
    Enlarges address insn w (w'.setSuccessors address edges) := by
  refine ⟨hinsns, edges, ?_, ?_⟩
  · cases h with
    | terminator hflow hcalls => exact .terminator hflow hcalls
    | falls hflow hcalls => exact .falls hflow hcalls
    | suppressed hflow hcalls => exact .suppressed hflow hcalls
  · rw [← hsuccs]
    rfl

theorem enlarges_followCall (hplain : isBlockTerminator insn.flow = false) :
    Enlarges address insn w (followCall inputs address insn pending w).2 := by
  unfold followCall
  cases htarget : (if insn.flow = .call then insn.directTarget else none) with
  | none =>
    dsimp only
    -- the diagnostic touches no edge
    split
    · exact enlarges_setSuccessors rfl rfl (.falls hplain rfl)
    · exact enlarges_setSuccessors rfl rfl (.falls hplain rfl)
  | some target =>
    simp only [reduceCtorEq, false_and, and_false, if_false]
    by_cases hnext : target = insn.nextAddress
    · simp only [hnext, ne_eq, not_true_eq_false, false_and, if_false]
      exact enlarges_setSuccessors rfl rfl (.falls hplain rfl)
    · simp only [hnext, ne_eq, not_false_eq_true, true_and, if_true]
      split
      · exact enlarges_setSuccessors rfl rfl (.suppressed hplain rfl)
      · exact enlarges_setSuccessors rfl rfl (.falls hplain rfl)

theorem enlarges_followIndirectBranch (hflow : isBlockTerminator insn.flow = true) :
    Enlarges address insn w (followIndirectBranch inputs address insn pending w).2 := by
  unfold followIndirectBranch
  split
  · exact enlarges_setSuccessors rfl rfl (.terminator hflow rfl)
  · dsimp only
    obtain ⟨hsuccs, hinsns, hcalls, -⟩ := pushCodeXrefs_spec
      ((inputs.switchTargets w.toFlowGraph insn).getD (jumpTableTargets inputs.image insn)) w address
    split
    · exact enlarges_setSuccessors hinsns hsuccs (.terminator hflow hcalls)
    · split
      · exact enlarges_setSuccessors rfl rfl (.terminator hflow rfl)
      · exact enlarges_setSuccessors hinsns hsuccs (.terminator hflow hcalls)

theorem enlarges_followFlow :
    Enlarges address insn w (followFlow inputs address insn pending w).2 := by
  unfold followFlow
  dsimp only
  split
  · rename_i hflow
    exact enlarges_setSuccessors rfl rfl (.falls (by rw [hflow]; rfl) rfl)
  · rename_i hflow
    exact enlarges_followCall (by rw [hflow]; rfl)
  · rename_i hflow
    exact enlarges_followCall (by rw [hflow]; rfl)
  · rename_i hflow
    have hends : isBlockTerminator insn.flow = true := by rw [hflow]; rfl
    split
    · exact enlarges_setSuccessors rfl rfl (.terminator hends rfl)
    · exact enlarges_setSuccessors rfl rfl (.terminator hends rfl)
  · rename_i hflow
    have hends : isBlockTerminator insn.flow = true := by rw [hflow]; rfl
    split
    · exact enlarges_setSuccessors rfl rfl (.terminator hends rfl)
    · exact ⟨rfl, _, .terminator hends rfl, rfl⟩
  · rename_i hflow
    exact enlarges_followIndirectBranch (by rw [hflow]; rfl)
  · rename_i hflow
    exact enlarges_setSuccessors rfl rfl (.terminator (by rw [hflow]; rfl) rfl)
  · rename_i hflow
    exact enlarges_setSuccessors rfl rfl (.terminator (by rw [hflow]; rfl) rfl)

/-- What is stored after an arm: the instruction and its edges, and the rest as before. -/
theorem Enlarges.stored (hadds : Enlarges address insn (w.define address insn) w')
    (hnone : w.instructions.get? address = none) :
    (∀ a, w'.instructions.get? a = if a = address then some insn else w.instructions.get? a) ∧
      ∃ edges, Adds address insn (w.define address insn) w' edges ∧
        ∀ a, w'.successors.get? a = if a = address then some edges else w.successors.get? a := by
  obtain ⟨hinsns, edges, hedges, hsuccs⟩ := hadds
  refine ⟨fun a => ?_, edges, hedges, fun a => ?_⟩
  · rw [hinsns]
    show (w.instructions.upsert address fun old => old.getD insn).get? a = _
    rw [OrdMap.get?_upsert, hnone]
    rfl
  · rw [hsuccs, OrdMap.get?_upsert]
    rfl

theorem Adds.mem_noreturnCalls {edges : List Edge}
    (hedges : Adds address insn (w.define address insn) w' edges) {a : UInt64} (ha : a ≠ address) :
    a ∈ w'.noreturnCalls ↔ a ∈ w.noreturnCalls := by
  cases hedges with
  | terminator _ hcalls => rw [hcalls]; rfl
  | falls _ hcalls => rw [hcalls]; rfl
  | suppressed _ hcalls =>
    rw [hcalls, OrdSet.mem_insert]
    exact or_iff_right ha

/-- Recording a new instruction. -/
theorem Stored.record (h : Stored w.toFlowGraph) (hnew : address ∉ visited w.toFlowGraph)
    (hadds : Enlarges address insn (w.define address insn) w') : Stored w'.toFlowGraph := by
  have hnone : w.instructions.get? address = none := by
    have htogether := h.together address
    rw [mem_visited, htogether] at hnew
    simpa using hnew
  obtain ⟨hinsn, edges, hedges, hsucc⟩ := hadds.stored hnone
  have hfresh : address ∉ w.noreturnCalls := by
    intro hmem
    have hrecorded := (h.suppressed address hmem).1
    rw [mem_visited, hrecorded] at hnew
    exact hnew rfl
  have hother : ∀ a ≠ address, (a ∈ w'.noreturnCalls ↔ a ∈ w.noreturnCalls) :=
    fun a ha => hedges.mem_noreturnCalls ha
  constructor
  · intro a
    show (w'.successors.get? a).isSome = (w'.instructions.get? a).isSome
    rw [hinsn, hsucc]
    by_cases ha : a = address
    · rw [if_pos ha, if_pos ha]
      rfl
    · rw [if_neg ha, if_neg ha]
      exact h.together a
  · intro a hmem
    show w'.successors.get? a = some [] ∧ ∀ i, w'.instructions.get? a = some i → _
    rw [hinsn, hsucc]
    by_cases ha : a = address
    · subst ha
      rw [if_pos rfl, if_pos rfl]
      cases hedges with
      | terminator _ hcalls => exact absurd (hcalls ▸ hmem) hfresh
      | falls _ hcalls => exact absurd (hcalls ▸ hmem) hfresh
      | suppressed hflow _ =>
        refine ⟨rfl, fun i hi => ?_⟩
        rw [← Option.some.inj hi]
        exact hflow
    · rw [if_neg ha, if_neg ha]
      exact h.suppressed a ((hother a ha).mp hmem)
  · intro a i hi hflow hmem
    show w'.successors.get? a = _
    rw [hsucc]
    have hi' : w'.instructions.get? a = some i := hi
    rw [hinsn] at hi'
    by_cases ha : a = address
    · subst ha
      rw [if_pos rfl] at hi' ⊢
      obtain rfl := Option.some.inj hi'
      cases hedges with
      | terminator hends _ =>
        rw [hends] at hflow
        cases hflow
      | falls _ _ => rfl
      | suppressed _ hcalls =>
        refine absurd ?_ hmem
        show a ∈ w'.noreturnCalls
        rw [hcalls]
        exact OrdSet.mem_insert.mpr (Or.inl rfl)
    · rw [if_neg ha] at hi' ⊢
      exact h.falls a i hi' hflow fun hin => hmem ((hother a ha).mpr hin)

theorem stored_runTasks {start : UInt64} {rest : Option (List UInt64 → Walk A → Outcome A)}
    (hrest : ∀ continue_, rest = some continue_ → ∀ queue (w : Walk A), Stored w.toFlowGraph →
      Stored (continue_ queue w).graph)
    (queue : List UInt64) (h : Stored w.toFlowGraph) :
    Stored (runTasks inputs start rest queue w).graph := by
  have hdiagnose : ∀ (v : Walk A) (a : UInt64) (message : String), Stored v.toFlowGraph →
      Stored (v.diagnose a message).toFlowGraph :=
    fun _ _ _ hv => ⟨hv.together, hv.suppressed, hv.falls⟩
  induction queue generalizing w with
  | nil => exact h
  | cons address pending ih =>
    unfold runTasks
    split
    · exact ih h
    · rename_i hpasses
      split
      · exact hdiagnose w _ _ h
      · split
        · exact ih (hdiagnose w _ _ h)
        · split
          · exact ih (hdiagnose w _ _ h)
          · have hnew := (not_visited_of_passes (Bool.eq_false_iff.mpr hpasses)).1
            exact hrest _ rfl _ _ (h.record hnew enlarges_followFlow)

theorem stored_discoverFlow {start : UInt64} (budget : Nat) (queue : List UInt64)
    (h : Stored w.toFlowGraph) : Stored (discoverFlow inputs start budget queue w).graph := by
  induction budget generalizing queue w with
  | zero => exact stored_runTasks (fun _ hrest => by cases hrest) queue h
  | succ budget ih =>
    refine stored_runTasks (fun continue_ hrest queue w hw => ?_) queue h
    obtain rfl := Option.some.inj hrest
    exact ih queue hw

end

theorem Walked.stored {image : LoadedImage A} {graph : FlowGraph A} (h : Walked image graph) :
    Stored graph := by
  induction h with
  | empty => exact stored_empty
  | walk start _ _ ih =>
    exact stored_discoverFlow maxInsnsPerFunction [start] ⟨ih.together, ih.suppressed, ih.falls⟩

/-! ## Reachability -/

/-- An address with an instruction that is reached from the start along recorded edges, none of
    which falls into another function that the unwind table starts. -/
inductive InView (analysis : Analysis A) (start : UInt64) : UInt64 → Prop
  | start (hinsn : (analysis.graph.instructions.get? start).isSome = true) :
    InView analysis start start
  | edge {a : UInt64} {edge : Edge} (h : InView analysis start a)
    (hedge : edge ∈ successorsAt analysis a)
    (hown : edge.kind = .fallthrough → edge.target ≠ start →
      analysis.hasSeedKind edge.target .unwind = false)
    (hinsn : (analysis.graph.instructions.get? edge.target).isSome = true) :
    InView analysis start edge.target

section

variable {analysis : Analysis A} {start : UInt64}

theorem mem_viewEdges {a b : UInt64} : b ∈ viewEdges analysis start a ↔
    ∃ edge ∈ successorsAt analysis a, (edge.kind = .fallthrough → edge.target ≠ start →
      analysis.hasSeedKind edge.target .unwind = false) ∧ edge.target = b := by
  simp only [viewEdges, List.mem_map, List.mem_filter, Bool.not_eq_true', Bool.and_eq_false_iff,
    decide_eq_false_iff_not, and_assoc]
  constructor
  · intro ⟨edge, hedge, hown, htarget⟩
    refine ⟨edge, hedge, fun hkind hne => ?_, htarget⟩
    rcases hown with (hown | hown) | hown
    · exact absurd hkind hown
    · exact absurd hne hown
    · exact hown
  · intro ⟨edge, hedge, hown, htarget⟩
    refine ⟨edge, hedge, ?_, htarget⟩
    by_cases hkind : edge.kind = .fallthrough
    · by_cases hne : edge.target = start
      · exact Or.inl (Or.inr (not_not.mpr hne))
      · exact Or.inr (hown hkind hne)
    · exact Or.inl (Or.inl hkind)

variable (analysis start) in
/-- The search of a view as a walk from a worklist. -/
abbrev Searched (reachable : OrdSet UInt64) (pending : List UInt64) : Prop :=
  Frontier (fun a => (analysis.graph.instructions.get? a).isSome = true)
    (viewEdges analysis start) {start} {a | a ∈ reachable} pending

theorem searched_reachTasks
    {rest : Option (List UInt64 → OrdSet UInt64 → Option (OrdSet UInt64))}
    (hrest : ∀ continue_, rest = some continue_ → ∀ pending reachable found,
      Searched analysis start reachable pending → continue_ pending reachable = some found →
      Searched analysis start found [])
    {pending : List UInt64} {reachable found : OrdSet UInt64}
    (h : Searched analysis start reachable pending)
    (hrun : reachTasks analysis start false rest pending reachable = some found) :
    Searched analysis start found [] := by
  induction pending with
  | nil =>
    obtain rfl := Option.some.inj hrun
    exact h
  | cons address pending ih =>
    unfold reachTasks at hrun
    split at hrun
    · rename_i hskip
      simp only [Bool.or_eq_true, Option.isNone_iff_eq_none, decide_eq_true_eq] at hskip
      exact ih (h.skip fun henters => hskip.resolve_left (Option.isSome_iff_ne_none.mp henters)) hrun
    · rename_i hnew
      split at hrun
      · cases hrun
      · simp only [Bool.or_eq_true, Option.isNone_iff_eq_none, decide_eq_true_eq, not_or] at hnew
        refine hrest _ rfl _ _ _ ?_ hrun
        have hinsert : {a | a ∈ reachable.insert address} =
            insert address {a | a ∈ reachable} := by
          ext a
          exact OrdSet.mem_insert
        show Frontier _ _ _ {a | a ∈ reachable.insert address} _
        rw [hinsert]
        apply h.visit (Option.isSome_iff_ne_none.mpr hnew.1)
        intro b
        rw [if_neg Bool.false_ne_true, List.mem_append, or_comm]

theorem searched_reach {budget : Nat} {pending : List UInt64} {reachable found : OrdSet UInt64}
    (h : Searched analysis start reachable pending)
    (hrun : reach analysis start false budget pending reachable = some found) :
    Searched analysis start found [] := by
  induction budget generalizing pending reachable found with
  | zero => exact searched_reachTasks (fun _ hrest => by cases hrest) h hrun
  | succ budget ih =>
    refine searched_reachTasks (fun continue_ hrest pending reachable found hw hgoes => ?_) h hrun
    obtain rfl := Option.some.inj hrest
    exact ih hw hgoes

/-- The addresses that the search finds are those of the view. -/
theorem mem_reach_iff {budget : Nat} {found : OrdSet UInt64}
    (hrun : reach analysis start false budget [start] ∅ = some found) (a : UInt64) :
    a ∈ found ↔ InView analysis start a := by
  have hempty : {a | a ∈ (∅ : OrdSet UInt64)} = ∅ :=
    Set.eq_empty_iff_forall_notMem.mpr OrdSet.not_mem_empty
  have hsearch : Searched analysis start found [] := by
    refine searched_reach ?_ hrun
    show Frontier _ _ _ {a | a ∈ (∅ : OrdSet UInt64)} _
    rw [hempty]
    have hnone : Frontier (fun a => (analysis.graph.instructions.get? a).isSome = true)
        (viewEdges analysis start) ∅ ∅ [] := .empty
    have hstart := hnone.restart start
    rwa [insert_empty_eq] at hstart
  refine hsearch.visited_iff.trans ⟨fun hcovered => ?_, fun hview => ?_⟩
  · induction hcovered with
    | start h hinsn =>
      obtain rfl := h
      exact .start hinsn
    | follow _ hb hinsn ih =>
      obtain ⟨edge, hedge, hown, rfl⟩ := mem_viewEdges.mp hb
      exact .edge ih hedge hown hinsn
  · induction hview with
    | start hinsn => exact .start rfl hinsn
    | edge _ hedge hown hinsn ih =>
      exact .follow ih (mem_viewEdges.mpr ⟨_, hedge, hown, rfl⟩) hinsn

end

/-! ## Blocks -/

/-- The instructions of a block from an address on, and its edges. -/
inductive Block (analysis : Analysis A) (reachable starts : OrdSet UInt64) :
    UInt64 → List (Located A) → List Edge → Prop
  | ends {a : UInt64} {insn : DecodedInstruction A}
    (hinsn : analysis.graph.instructions.get? a = some insn)
    (hflow : isBlockTerminator insn.flow = true) :
    Block analysis reachable starts a [⟨a, insn⟩] (reachableEdges analysis reachable a)
  | cut {a : UInt64} {insn : DecodedInstruction A}
    (hinsn : analysis.graph.instructions.get? a = some insn)
    (hflow : isBlockTerminator insn.flow = false) (hnext : insn.nextAddress ∈ starts) :
    Block analysis reachable starts a [⟨a, insn⟩] [⟨insn.nextAddress, .fallthrough⟩]
  | leaves {a : UInt64} {insn : DecodedInstruction A}
    (hinsn : analysis.graph.instructions.get? a = some insn)
    (hflow : isBlockTerminator insn.flow = false) (hnext : insn.nextAddress ∉ reachable) :
    Block analysis reachable starts a [⟨a, insn⟩] []
  | goes {a : UInt64} {insn : DecodedInstruction A} {insns : List (Located A)} {edges : List Edge}
    (hinsn : analysis.graph.instructions.get? a = some insn)
    (hflow : isBlockTerminator insn.flow = false) (hnext : insn.nextAddress ∈ reachable)
    (hrest : Block analysis reachable starts insn.nextAddress insns edges) :
    Block analysis reachable starts a (⟨a, insn⟩ :: insns) edges

section

variable {analysis : Analysis A} {reachable starts : OrdSet UInt64} {a : UInt64}
  {insns : List (Located A)} {edges : List Edge}

/-- The walk of a block goes up through reachable addresses, so it ends within their number. -/
theorem blockFrom_spec {blockStart : UInt64}
    (hnext : ∀ a insn, analysis.graph.instructions.get? a = some insn → a < insn.nextAddress)
    (hinsns : ∀ a ∈ reachable, ∃ insn, analysis.graph.instructions.get? a = some insn)
    (length : Nat) (before : List (Located A)) (hstart : blockStart ≤ a) (ha : a ∈ reachable)
    (hlength : (reachable.toList.filter fun b => decide (a ≤ b)).length ≤ length) :
    ∃ insns edges, blockFrom analysis reachable starts blockStart length a before =
      (before ++ insns, edges) ∧ Block analysis reachable starts a insns edges := by
  induction length generalizing a before with
  | zero =>
    have hmem : a ∈ reachable.toList.filter fun b => decide (a ≤ b) :=
      List.mem_filter.mpr ⟨ha, decide_eq_true le_rfl⟩
    have := List.length_pos_of_mem hmem
    omega
  | succ length ih =>
    obtain ⟨insn, hinsn⟩ := hinsns a ha
    have hlt := hnext a insn hinsn
    rw [blockFrom, hinsn]
    dsimp only
    by_cases hflow : isBlockTerminator insn.flow = true
    · rw [if_pos hflow]
      exact ⟨_, _, rfl, .ends hinsn hflow⟩
    · rw [if_neg hflow]
      rw [Bool.not_eq_true] at hflow
      have hne : insn.nextAddress ≠ blockStart := ne_of_gt (lt_of_le_of_lt hstart hlt)
      by_cases hcut : insn.nextAddress ∈ starts
      · rw [if_pos ⟨hne, hcut⟩]
        exact ⟨_, _, rfl, .cut hinsn hflow hcut⟩
      · rw [if_neg fun h => hcut h.2]
        by_cases hreach : insn.nextAddress ∈ reachable
        · rw [if_neg (not_not.mpr hreach)]
          have hfewer : (reachable.toList.filter fun b => decide (insn.nextAddress ≤ b)).length <
              (reachable.toList.filter fun b => decide (a ≤ b)).length := by
            refine Graphs.filter_length_lt (fun b hb => ?_) ha ?_ ?_
            · simp only [decide_eq_true_eq] at hb ⊢
              exact hlt.le.trans hb
            · simpa using hlt
            · simp
          obtain ⟨insns, edges, hwalk, hblock⟩ := ih (before ++ [⟨a, insn⟩])
            (hstart.trans hlt.le) hreach (by omega)
          refine ⟨⟨a, insn⟩ :: insns, edges, ?_, .goes hinsn hflow hreach hblock⟩
          rw [hwalk, List.append_assoc]
          rfl
        · rw [if_pos hreach]
          exact ⟨_, _, rfl, .leaves hinsn hflow hreach⟩

theorem Block.head (h : Block analysis reachable starts a insns edges) :
    ∃ insn rest, insns = ⟨a, insn⟩ :: rest := by
  cases h with
  | ends => exact ⟨_, _, rfl⟩
  | cut => exact ⟨_, _, rfl⟩
  | leaves => exact ⟨_, _, rfl⟩
  | goes => exact ⟨_, _, rfl⟩

/-- A block has the recorded instructions of reachable addresses. -/
theorem Block.mem (h : Block analysis reachable starts a insns edges) (ha : a ∈ reachable) :
    ∀ located ∈ insns, located.address ∈ reachable ∧
      analysis.graph.instructions.get? located.address = some located.insn := by
  induction h with
  | ends hinsn => simpa using ⟨ha, hinsn⟩
  | cut hinsn => simpa using ⟨ha, hinsn⟩
  | leaves hinsn => simpa using ⟨ha, hinsn⟩
  | goes hinsn _ hnext _ ih => exact List.forall_mem_cons.mpr ⟨⟨ha, hinsn⟩, ih hnext⟩

/-- The next address starts a block or is in the block. -/
theorem Block.covers (h : Block analysis reachable starts a insns edges) :
    ∀ located ∈ insns, isBlockTerminator located.insn.flow = false →
      located.insn.nextAddress ∈ reachable →
      located.insn.nextAddress ∈ starts ∨
        ∃ next ∈ insns, next.address = located.insn.nextAddress := by
  induction h with
  | ends hinsn hflow =>
    intro located hmem hplain
    rw [List.mem_singleton.mp hmem, hflow] at hplain
    cases hplain
  | cut _ _ hnext =>
    intro located hmem _ _
    rw [List.mem_singleton.mp hmem]
    exact Or.inl hnext
  | leaves _ _ hnext =>
    intro located hmem _ hreach
    rw [List.mem_singleton.mp hmem] at hreach
    exact absurd hreach hnext
  | goes _ _ _ hrest ih =>
    intro located hmem hplain hreach
    rcases List.mem_cons.mp hmem with rfl | hmem
    · obtain ⟨insn, rest, rfl⟩ := hrest.head
      exact Or.inr ⟨⟨_, insn⟩, by simp, rfl⟩
    · rcases ih located hmem hplain hreach with hstart | ⟨next, hin, hnext⟩
      · exact Or.inl hstart
      · exact Or.inr ⟨next, List.mem_cons_of_mem _ hin, hnext⟩

variable (analysis) in
/-- The second of two instructions is the recorded fallthrough of the first. -/
def Linked (first second : Located A) : Prop :=
  (⟨second.address, .fallthrough⟩ : Edge) ∈ successorsAt analysis first.address

variable (analysis reachable) in
/-- The edges are those recorded of the last instruction, into the view. -/
def EdgesOfLast (insns : List (Located A)) (edges : List Edge) : Prop :=
  ∃ last, insns.getLast? = some last ∧
    ∀ edge, edge ∈ edges ↔ edge ∈ successorsAt analysis last.address ∧ edge.target ∈ reachable

/-- No instruction that goes on to a reachable address has lost its edge to it. -/
def Falls (analysis : Analysis A) (reachable : OrdSet UInt64) (located : Located A) : Prop :=
  isBlockTerminator located.insn.flow = false → located.insn.nextAddress ∈ reachable →
    (⟨located.insn.nextAddress, .fallthrough⟩ : Edge) ∈ successorsAt analysis located.address

theorem Block.linked (h : Block analysis reachable starts a insns edges)
    (hfalls : ∀ located ∈ insns, Falls analysis reachable located) :
    insns.IsChain (Linked analysis) := by
  induction h with
  | ends => exact .singleton _
  | cut => exact .singleton _
  | leaves => exact .singleton _
  | goes _ hflow hnext hrest ih =>
    obtain ⟨insn, rest, rfl⟩ := hrest.head
    refine List.isChain_cons_cons.mpr ⟨?_, ih fun l hl => hfalls l (List.mem_cons_of_mem _ hl)⟩
    exact hfalls _ List.mem_cons_self hflow hnext

/-- An instruction that does not end a block has no other edge than its fallthrough. -/
def OnlyFalls (analysis : Analysis A) : Prop :=
  ∀ a insn, analysis.graph.instructions.get? a = some insn → isBlockTerminator insn.flow = false →
    ∀ edge ∈ successorsAt analysis a, edge = ⟨insn.nextAddress, .fallthrough⟩

theorem Block.edgesOfLast (h : Block analysis reachable starts a insns edges)
    (honly : OnlyFalls analysis) (hstarts : ∀ b ∈ starts, b ∈ reachable)
    (hfalls : ∀ located ∈ insns, Falls analysis reachable located) :
    EdgesOfLast analysis reachable insns edges := by
  induction h with
  | ends => exact ⟨_, rfl, fun edge => by simp [reachableEdges]⟩
  | cut hinsn hflow hnext =>
    refine ⟨_, rfl, fun edge => ?_⟩
    rw [List.mem_singleton]
    constructor
    · intro hedge
      subst hedge
      exact ⟨hfalls _ List.mem_cons_self hflow (hstarts _ hnext), hstarts _ hnext⟩
    · exact fun hedge => honly _ _ hinsn hflow edge hedge.1
  | leaves hinsn hflow hnext =>
    refine ⟨_, rfl, fun edge => ⟨fun h => absurd h List.not_mem_nil, fun hedge => ?_⟩⟩
    rw [honly _ _ hinsn hflow edge hedge.1] at hedge
    exact absurd hedge.2 hnext
  | goes _ _ _ hrest ih =>
    obtain ⟨last, hlast, hedges⟩ := ih fun l hl => hfalls l (List.mem_cons_of_mem _ hl)
    refine ⟨last, ?_, hedges⟩
    obtain ⟨insn, rest, rfl⟩ := hrest.head
    rw [List.getLast?_cons_cons]
    exact hlast

/-- A block that says only what is recorded has lost no edge. -/
theorem Block.falls (h : Block analysis reachable starts a insns edges)
    (hlinked : insns.IsChain (Linked analysis)) (hlast : EdgesOfLast analysis reachable insns edges) :
    ∀ located ∈ insns, Falls analysis reachable located := by
  induction h with
  | ends hinsn hflow =>
    intro located hmem hplain
    rw [List.mem_singleton.mp hmem, hflow] at hplain
    cases hplain
  | cut hinsn hflow hnext =>
    intro located hmem _ _
    obtain ⟨last, hget, hedges⟩ := hlast
    obtain rfl := Option.some.inj hget
    rw [List.mem_singleton.mp hmem]
    exact ((hedges _).mp List.mem_cons_self).1
  | leaves hinsn hflow hnext =>
    intro located hmem _ hreach
    rw [List.mem_singleton.mp hmem] at hreach
    exact absurd hreach hnext
  | goes hinsn hflow hnext hrest ih =>
    obtain ⟨insn, rest, rfl⟩ := hrest.head
    obtain ⟨hlink, htail⟩ := List.isChain_cons_cons.mp hlinked
    rw [EdgesOfLast, List.getLast?_cons_cons] at hlast
    exact List.forall_mem_cons.mpr ⟨fun _ _ => hlink, ih htail hlast⟩

end

/-! ## Views -/

/-- A view is the part of the recorded graph that its start reaches: its blocks have the
    instructions in view and no others, each instruction of a block falls through to the one behind
    it, and a block goes on along the recorded edges of its last instruction into the view. -/
structure Faithful (analysis : Analysis A) (start : UInt64) (view : FunctionView A) : Prop where
  members : ∀ located : Located A, (∃ block ∈ view.blocks, located ∈ block.insns) ↔
    InView analysis start located.address ∧
      analysis.graph.instructions.get? located.address = some located.insn
  linked : ∀ block ∈ view.blocks, block.insns.IsChain (Linked analysis)
  succs : ∀ block ∈ view.blocks, ∃ last, block.insns.getLast? = some last ∧
    ∀ edge, edge ∈ block.succs ↔
      edge ∈ successorsAt analysis last.address ∧ InView analysis start edge.target

section

variable {analysis : Analysis A} {start : UInt64} {reachable : OrdSet UInt64}

theorem mem_blockStarts {a : UInt64} : a ∈ blockStarts analysis start reachable ↔
    a = start ∨ (a ∈ analysis.graph.codeXrefs.keys ∧ a ∈ reachable) ∨
      ∃ b ∈ reachable, ∃ insn, analysis.graph.instructions.get? b = some insn ∧
        isBlockTerminator insn.flow = true ∧
        ∃ edge ∈ reachableEdges analysis reachable b, edge.target = a := by
  simp only [blockStarts, OrdSet.mem_ofList, List.mem_cons, List.mem_append, List.mem_filter,
    decide_eq_true_eq, List.mem_flatMap, List.cons_append]
  refine or_congr_right (or_congr_right (exists_congr fun b => and_congr_right fun _ => ?_))
  cases analysis.graph.instructions.get? b with
  | none => simp
  | some insn =>
    by_cases hflow : isBlockTerminator insn.flow = true
    · simp [hflow]
    · simp [hflow]

theorem InView.instruction {a : UInt64} (h : InView analysis start a) :
    ∃ insn, analysis.graph.instructions.get? a = some insn := by
  cases h with
  | start hinsn => exact Option.isSome_iff_exists.mp hinsn
  | edge _ _ _ hinsn => exact Option.isSome_iff_exists.mp hinsn

theorem InView.start_inView {a : UInt64} (h : InView analysis start a) :
    InView analysis start start := by
  induction h with
  | start hinsn => exact .start hinsn
  | edge _ _ _ _ ih => exact ih

variable {view : FunctionView A}

/-- A view has one block for every start in it. -/
theorem blocks_spec
    (hnext : ∀ a insn, analysis.graph.instructions.get? a = some insn → a < insn.nextAddress)
    (h : buildFunctionView analysis start false = .ok view) :
    ∃ reachable : OrdSet UInt64, (∀ a, a ∈ reachable ↔ InView analysis start a) ∧
      (∀ block ∈ view.blocks, block.addr ∈ reachable ∧
        Block analysis reachable (blockStarts analysis start reachable) block.addr block.insns
          block.succs) ∧
      ∀ a ∈ blockStarts analysis start reachable, a ∈ reachable →
        ∃ block ∈ view.blocks, block.addr = a := by
  unfold buildFunctionView at h
  cases hreach : reach analysis start false maxInsnsPerFunction [start] ∅ with
  | none =>
    rw [hreach] at h
    cases h
  | some reachable =>
    rw [hreach] at h
    obtain rfl := Except.ok.inj h
    have hview := mem_reach_iff hreach
    refine ⟨reachable, hview, ?_, ?_⟩
    · intro block hblock
      obtain ⟨a, ha, rfl⟩ := List.mem_map.mp hblock
      have hin : a ∈ reachable := of_decide_eq_true (List.mem_filter.mp ha).2
      obtain ⟨insns, edges, hwalk, hspec⟩ : ∃ insns edges, blockFrom analysis reachable
          (blockStarts analysis start reachable) a reachable.card a [] = ([] ++ insns, edges) ∧
          Block analysis reachable (blockStarts analysis start reachable) a insns edges :=
        blockFrom_spec hnext (fun a ha => ((hview a).mp ha).instruction) reachable.card [] le_rfl
          hin (List.length_filter_le _ _)
      dsimp only
      rw [hwalk]
      exact ⟨hin, hspec⟩
    · intro a hstart ha
      exact ⟨_, List.mem_map.mpr ⟨a, List.mem_filter.mpr ⟨hstart, decide_eq_true ha⟩, rfl⟩, rfl⟩

/-- Every instruction in view is in a block: its predecessor ends a block, or walks on to it. -/
theorem inView_covered (honly : OnlyFalls analysis)
    (hview : ∀ a, a ∈ reachable ↔ InView analysis start a)
    (hblocks : ∀ block ∈ view.blocks, block.addr ∈ reachable ∧
      Block analysis reachable (blockStarts analysis start reachable) block.addr block.insns
        block.succs)
    (hstarts : ∀ a ∈ blockStarts analysis start reachable, a ∈ reachable →
      ∃ block ∈ view.blocks, block.addr = a) {a : UInt64} (h : InView analysis start a) :
    ∃ block ∈ view.blocks, ∃ located ∈ block.insns, located.address = a := by
  have hstarted : ∀ a ∈ blockStarts analysis start reachable, a ∈ reachable →
      ∃ block ∈ view.blocks, ∃ located ∈ block.insns, located.address = a := by
    intro a hstart ha
    obtain ⟨block, hblock, rfl⟩ := hstarts a hstart ha
    obtain ⟨insn, rest, hinsns⟩ := (hblocks block hblock).2.head
    exact ⟨block, hblock, ⟨_, insn⟩, by rw [hinsns]; exact List.mem_cons_self, rfl⟩
  induction h with
  | start hinsn =>
    exact hstarted start (mem_blockStarts.mpr (Or.inl rfl)) ((hview start).mpr (.start hinsn))
  | @edge b edge hb hedge hown hinsn ih =>
    have htarget : edge.target ∈ reachable := (hview _).mpr (.edge hb hedge hown hinsn)
    obtain ⟨block, hblock, located, hlocated, rfl⟩ := ih
    obtain ⟨hin, hspec⟩ := hblocks block hblock
    obtain ⟨hreach, hget⟩ := hspec.mem hin located hlocated
    by_cases hflow : isBlockTerminator located.insn.flow = true
    · refine hstarted _ (mem_blockStarts.mpr (Or.inr (Or.inr ?_))) htarget
      refine ⟨_, hreach, _, hget, hflow, edge, ?_, rfl⟩
      exact List.mem_filter.mpr ⟨hedge, decide_eq_true htarget⟩
    · rw [Bool.not_eq_true] at hflow
      have hfall := honly _ _ hget hflow edge hedge
      rw [hfall] at htarget ⊢
      rcases hspec.covers located hlocated hflow htarget with hstart | ⟨next, hnext, haddress⟩
      · exact hstarted _ hstart htarget
      · exact ⟨block, hblock, next, hnext, haddress⟩

/-- A view is faithful exactly when no instruction in view lost its edge to a next one in view. -/
theorem faithful_iff_falls
    (hnext : ∀ a insn, analysis.graph.instructions.get? a = some insn → a < insn.nextAddress)
    (honly : OnlyFalls analysis) (h : buildFunctionView analysis start false = .ok view) :
    Faithful analysis start view ↔ ∀ a insn, InView analysis start a →
      analysis.graph.instructions.get? a = some insn → isBlockTerminator insn.flow = false →
      InView analysis start insn.nextAddress →
      (⟨insn.nextAddress, .fallthrough⟩ : Edge) ∈ successorsAt analysis a := by
  obtain ⟨reachable, hview, hblocks, hstarts⟩ := blocks_spec hnext h
  constructor
  · intro hfaithful a insn ha hinsn hflow hin
    obtain ⟨block, hblock, hmem⟩ := (hfaithful.members ⟨a, insn⟩).mpr ⟨ha, hinsn⟩
    obtain ⟨last, hlast, hedges⟩ := hfaithful.succs block hblock
    have hend : EdgesOfLast analysis reachable block.insns block.succs :=
      ⟨last, hlast, fun edge => by rw [hview]; exact hedges edge⟩
    exact (hblocks block hblock).2.falls (hfaithful.linked block hblock) hend ⟨a, insn⟩ hmem hflow
      ((hview _).mpr hin)
  · intro hcondition
    have hfalls : ∀ block ∈ view.blocks, ∀ located ∈ block.insns,
        Falls analysis reachable located := by
      intro block hblock located hlocated hflow hin
      obtain ⟨hstart, hspec⟩ := hblocks block hblock
      obtain ⟨hreach, hget⟩ := hspec.mem hstart located hlocated
      exact hcondition _ _ ((hview _).mp hreach) hget hflow ((hview _).mp hin)
    constructor
    · intro located
      constructor
      · intro ⟨block, hblock, hlocated⟩
        obtain ⟨hstart, hspec⟩ := hblocks block hblock
        obtain ⟨hreach, hget⟩ := hspec.mem hstart located hlocated
        exact ⟨(hview _).mp hreach, hget⟩
      · intro ⟨hin, hget⟩
        obtain ⟨block, hblock, found, hfound, haddress⟩ :=
          inView_covered honly hview hblocks hstarts hin
        obtain ⟨hstart, hspec⟩ := hblocks block hblock
        have hinsn := (hspec.mem hstart found hfound).2
        rw [haddress, hget] at hinsn
        have hsame : found = located := by
          obtain ⟨address, insn⟩ := found
          subst haddress
          have hsame : located.insn = insn := Option.some.inj hinsn
          rw [← hsame]
        exact ⟨block, hblock, hsame ▸ hfound⟩
    · intro block hblock
      exact (hblocks block hblock).2.linked (hfalls block hblock)
    · intro block hblock
      obtain ⟨hstart, hspec⟩ := hblocks block hblock
      have hin : InView analysis start start := ((hview _).mp hstart).start_inView
      have hbounded : ∀ b ∈ blockStarts analysis start reachable, b ∈ reachable := by
        intro b hb
        rcases mem_blockStarts.mp hb with rfl | ⟨-, hb⟩ | ⟨_, _, _, _, _, edge, hedge, rfl⟩
        · exact (hview _).mpr hin
        · exact hb
        · exact of_decide_eq_true (List.mem_filter.mp hedge).2
      obtain ⟨last, hlast, hedges⟩ := hspec.edgesOfLast honly hbounded (hfalls block hblock)
      exact ⟨last, hlast, fun edge => by rw [← hview]; exact hedges edge⟩

end

/-- The view of a function is faithful to the flow that walks recorded, whatever else the analysis
    has of seeds and references, exactly when no suppressed call in view has its next address in
    view: there the view goes on, as if the call came back. -/
theorem faithful_iff (image : LoadedImage A) (graph : FlowGraph A) (hwalked : Walked image graph)
    (hnext : ∀ a insn, graph.instructions.get? a = some insn → a < insn.nextAddress)
    (analysis : Analysis A) (codeXrefs : Xrefs)
    (hgraph : analysis.graph = { graph with codeXrefs }) (start : UInt64) (view : FunctionView A)
    (h : buildFunctionView analysis start false = .ok view) :
    Faithful analysis start view ↔ ∀ a ∈ graph.noreturnCalls, ∀ insn,
      graph.instructions.get? a = some insn → InView analysis start a →
      ¬ InView analysis start insn.nextAddress := by
  have hstored := hwalked.stored
  have hinsns : analysis.graph.instructions = graph.instructions := by rw [hgraph]
  have hsuccs : ∀ a, successorsAt analysis a = (graph.successors.get? a).getD [] := by
    intro a
    rw [successorsAt, hgraph]
  have honly : OnlyFalls analysis := by
    intro a insn hinsn hflow edge hedge
    rw [hinsns] at hinsn
    rw [hsuccs] at hedge
    by_cases hcall : a ∈ graph.noreturnCalls
    · rw [(hstored.suppressed a hcall).1] at hedge
      exact absurd hedge List.not_mem_nil
    · rw [hstored.falls a insn hinsn hflow hcall] at hedge
      exact List.mem_singleton.mp hedge
  rw [faithful_iff_falls (by rw [hinsns]; exact hnext) honly h, hinsns]
  constructor
  · intro hfalls a hcall insn hinsn ha hin
    obtain ⟨hnone, hflow⟩ := hstored.suppressed a hcall
    have hedge := hfalls a insn ha hinsn (hflow insn hinsn) hin
    rw [hsuccs, hnone] at hedge
    exact absurd hedge List.not_mem_nil
  · intro hcalls a insn ha hinsn hflow hin
    have hcall : a ∉ graph.noreturnCalls := fun hcall => hcalls a hcall insn hinsn ha hin
    rw [hsuccs, hstored.falls a insn hinsn hflow hcall]
    exact List.mem_singleton.mpr rfl

/-! ## A guarded abort -/

/-- A branch over a call that does not come back, to the return at `past`. -/
def guardedAbort (past : UInt64) : RecoveryImage .x64 where
  sections := [⟨0x1000, 0x20, ⟨true, false, true⟩⟩]
  externalBindings := ∅
  uninitialized := []
  mappedBytes := [[0x74, 0x05, 0xe8, 0x09, 0x00, 0x00, 0x00, 0xc3] ++ List.replicate 24 0x90]
  decodeAt address :=
    let plain : X86Instruction := ⟨.other "", none, 1⟩
    if address = 0x1000 then .ok ⟨0x1002, .conditionalBranch, some past, none, plain⟩
    else if address = 0x1002 then .ok ⟨0x1007, .call, some 0x1010, none, plain⟩
    else if address = past then .ok ⟨past + 1, .return, none, none, plain⟩
    else .error "invalid instruction"
  format := .elf
  entryPoint := some 0x1000
  sectionFiles := [("PT_LOAD[0]", 0x20)]
  importLocations := ∅
  primaryCode := [(0x1000, 0x1020)]
  deadData := []
  elfPltRanges := []
  opKinds _ := []

def guardedAbortGraph (past : UInt64) : FlowGraph .x64 :=
  (discoverDirectFlow (nativeInputs (guardedAbort past).toLoadedImage (.singleton 0x1010)
    fun _ _ => none) .empty 0x1000).graph

def guardedAbortAnalysis (past : UInt64) : Analysis .x64 where
  image := guardedAbort past
  seeds := ∅
  graph := guardedAbortGraph past
  functions := ∅
  noreturn := .singleton 0x1010

theorem walked_guardedAbort (past : UInt64) :
    Walked (guardedAbort past).toLoadedImage (guardedAbortGraph past) :=
  .walk 0x1000 .empty rfl

theorem guardedAbort_next {past : UInt64} (hpast : past = 0x1007 ∨ past = 0x1008) (a : UInt64)
    (insn : DecodedInstruction .x64)
    (h : (guardedAbortGraph past).instructions.get? a = some insn) : a < insn.nextAddress := by
  have hall : (guardedAbortGraph past).instructions.entries.all
      (fun entry => decide (entry.1 < entry.2.nextAddress)) = true := by
    obtain rfl | rfl := hpast
    · decide +kernel
    · decide +kernel
  exact of_decide_eq_true (List.all_eq_true.mp hall (a, insn) (OrdMap.mem_entries_iff.mpr h))

theorem exists_guardedAbortView : ∃ view,
    buildFunctionView (guardedAbortAnalysis 0x1007) 0x1000 false = .ok view ∧
      ∃ block ∈ view.blocks, block.insns.getLast?.map Located.address = some 0x1002 ∧
        block.succs = [⟨0x1007, .fallthrough⟩] := by
  refine ⟨_, rfl, ⟨0x1002, _, _⟩, List.mem_cons_of_mem _ List.mem_cons_self, rfl, rfl⟩

/-- Where the return is not the next instruction behind the call, the view is faithful. -/
theorem faithful_iff_guardedAbort : ∃ view,
    buildFunctionView (guardedAbortAnalysis 0x1008) 0x1000 false = .ok view ∧
      0x1002 ∈ (guardedAbortGraph 0x1008).noreturnCalls ∧
      Faithful (guardedAbortAnalysis 0x1008) 0x1000 view := by
  refine ⟨_, rfl, by decide +kernel, ?_⟩
  refine (faithful_iff _ (guardedAbortGraph 0x1008) (walked_guardedAbort 0x1008)
    (guardedAbort_next (.inr rfl)) (guardedAbortAnalysis 0x1008)
    (guardedAbortGraph 0x1008).codeXrefs rfl 0x1000 _ rfl).mpr fun a ha insn hinsn _ hin => ?_
  have hnext : (guardedAbortGraph 0x1008).instructions.entries.all (fun entry =>
      !decide (entry.1 ∈ (guardedAbortGraph 0x1008).noreturnCalls) ||
        !((guardedAbortGraph 0x1008).instructions.get? entry.2.nextAddress).isSome) = true := by
    decide +kernel
  have hcall := List.all_eq_true.mp hnext (a, insn) (OrdMap.mem_entries_iff.mpr hinsn)
  rw [decide_eq_true ha, Bool.not_true, Bool.false_or, Bool.not_eq_true'] at hcall
  obtain ⟨next, hget⟩ := hin.instruction
  rw [show (guardedAbortAnalysis 0x1008).graph = guardedAbortGraph 0x1008 from rfl] at hget
  rw [hget] at hcall
  cases hcall

/-- The block of the suppressed call goes on to the return behind it. -/
theorem faithful_fails : ∃ (image : LoadedImage .x64) (graph : FlowGraph .x64)
    (analysis : Analysis .x64) (start : UInt64) (view : FunctionView .x64),
    Walked image graph ∧
      (∀ a insn, graph.instructions.get? a = some insn → a < insn.nextAddress) ∧
      analysis.graph = graph ∧ buildFunctionView analysis start false = .ok view ∧
      ¬ Faithful analysis start view := by
  obtain ⟨view, hview, block, hblock, hlast, hsuccs⟩ := exists_guardedAbortView
  refine ⟨_, guardedAbortGraph 0x1007, guardedAbortAnalysis 0x1007, 0x1000, view,
    walked_guardedAbort 0x1007, guardedAbort_next (.inl rfl), rfl, hview, fun hfaithful => ?_⟩
  obtain ⟨last, hget, hedges⟩ := hfaithful.succs block hblock
  rw [hget] at hlast
  have haddress : last.address = 0x1002 := Option.some.inj hlast
  have hnone : successorsAt (guardedAbortAnalysis 0x1007) 0x1002 = [] := by decide +kernel
  have hedge := ((hedges ⟨0x1007, .fallthrough⟩).mp (by rw [hsuccs]; exact List.mem_cons_self)).1
  rw [haddress, hnone] at hedge
  exact absurd hedge List.not_mem_nil

end CapaX.Recovery
