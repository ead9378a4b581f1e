import CapaX.Graphs.Dfs
import CapaX.Recovery.Recover

/-
  The blocks of a function together with those behind its tail calls (`function_with_tail_blocks`
  in `flirt.rs`). The walk goes through functions and gathers blocks, and remembers the addresses of
  both. A block at an address that it has already gathered is passed over with its tail calls; the
  blocks that it does gather carry the invariant (`Gathered`): every tail call of theirs leads to a
  function gone through or still waits.
-/

namespace CapaX.Recovery

open Collections

variable {A : Architecture}

/-- Where the tail calls of a block lead, in order. -/
def tailTargets (block : BasicBlock A) : List UInt64 :=
  (block.succs.filter fun edge => decide (edge.kind = .tailCall)).map Edge.target

theorem mem_tailTargets {block : BasicBlock A} {address : UInt64} :
    address ∈ tailTargets block ↔
      ∃ edge ∈ block.succs, edge.kind = .tailCall ∧ edge.target = address := by
  simp [tailTargets, and_assoc]

/-- The variables of the walk; the top of the stack stands at the head of `pending`. -/
structure TailWalk (A : Architecture) where
  blocks : List (BasicBlock A)
  seenBlocks : OrdSet UInt64
  seenFunctions : OrdSet UInt64
  pending : List UInt64

namespace TailWalk

def start (root : FunctionView A) : TailWalk A where
  blocks := root.blocks
  seenBlocks := OrdSet.ofList (root.blocks.map (·.addr))
  seenFunctions := OrdSet.singleton root.addr
  pending := (root.blocks.flatMap tailTargets).reverse

def addBlock (s : TailWalk A) (block : BasicBlock A) : TailWalk A :=
  if block.addr ∈ s.seenBlocks then s
  else
    { s with
      seenBlocks := s.seenBlocks.insert block.addr
      pending := (tailTargets block).reverse ++ s.pending
      blocks := s.blocks ++ [block] }

/-- Go through the function at an address that was taken off the stack. -/
def serve (analysis : Analysis A) (s : TailWalk A) (address : UInt64) : TailWalk A :=
  if address ∈ s.seenFunctions then s
  else
    let s := { s with seenFunctions := s.seenFunctions.insert address }
    match analysis.functions.get? address with
    | none => s
    | some target => target.blocks.foldl addBlock s

/-- The functions that the walk has not gone through. -/
def unseen (analysis : Analysis A) (s : TailWalk A) : Nat :=
  Graphs.unseen analysis.functions.keys s.seenFunctions

@[simp] theorem addBlock_seenFunctions (s : TailWalk A) (block : BasicBlock A) :
    (s.addBlock block).seenFunctions = s.seenFunctions := by
  unfold addBlock
  split <;> rfl

@[simp] theorem foldl_addBlock_seenFunctions (s : TailWalk A) (blocks : List (BasicBlock A)) :
    (blocks.foldl addBlock s).seenFunctions = s.seenFunctions := by
  induction blocks generalizing s with
  | nil => rfl
  | cons block blocks ih => rw [List.foldl_cons, ih, addBlock_seenFunctions]

theorem serve_seen {analysis : Analysis A} {s : TailWalk A} {address : UInt64}
    (h : address ∈ s.seenFunctions) : serve analysis s address = s := if_pos h

theorem serve_new {analysis : Analysis A} {s : TailWalk A} {address : UInt64}
    (h : address ∉ s.seenFunctions) :
    serve analysis s address =
      (((analysis.functions.get? address).map (·.blocks)).getD []).foldl addBlock
        { s with seenFunctions := s.seenFunctions.insert address } := by
  rw [serve, if_neg h]
  cases analysis.functions.get? address <;> rfl

theorem serve_seenFunctions {analysis : Analysis A} {s : TailWalk A} {address : UInt64}
    (h : address ∉ s.seenFunctions) :
    (serve analysis s address).seenFunctions = s.seenFunctions.insert address := by
  rw [serve_new h, foldl_addBlock_seenFunctions]

/-- A turn that pushes anything goes through one more function. -/
theorem serve_rank (analysis : Analysis A) (s : TailWalk A) (address : UInt64) :
    (serve analysis s address).unseen analysis < s.unseen analysis ∨
      (serve analysis s address).unseen analysis ≤ s.unseen analysis ∧
        (serve analysis s address).pending = s.pending := by
  by_cases hseen : address ∈ s.seenFunctions
  · rw [serve_seen hseen]
    exact Or.inr ⟨Nat.le_refl _, rfl⟩
  · unfold unseen
    rw [serve_seenFunctions hseen]
    cases hget : analysis.functions.get? address with
    | none =>
      refine Or.inr ⟨?_, by rw [serve_new hseen, hget]; rfl⟩
      exact Graphs.unseen_mono fun a ha => OrdSet.mem_insert.mpr (Or.inr ha)
    | some target =>
      refine Or.inl (Graphs.unseen_insert_lt ?_ hseen)
      exact OrdMap.mem_keys_iff.mpr (by rw [hget]; rfl)

/-- The loop over the stack. -/
def run (analysis : Analysis A) (s : TailWalk A) : TailWalk A :=
  match _hpending : s.pending with
  | [] => s
  | address :: pending => run analysis (serve analysis { s with pending := pending } address)
termination_by (s.unseen analysis, s.pending.length)
decreasing_by
  have hrank := serve_rank analysis { s with pending := pending } address
  rw [Prod.lex_def]
  obtain hless | ⟨hle, hsame⟩ := hrank
  · exact Or.inl hless
  · rw [hsame, _hpending, List.length_cons]
    obtain hless | heq := Nat.lt_or_eq_of_le hle
    · exact Or.inl hless
    · exact Or.inr ⟨heq, Nat.lt_succ_self _⟩

end TailWalk

def functionWithTailBlocks (analysis : Analysis A) (root : FunctionView A) : FunctionView A where
  addr := root.addr
  blocks := ((TailWalk.start root).run analysis).blocks.mergeSort fun a b => decide (a.addr ≤ b.addr)

/-! ## What is gathered -/

/-- The functions that tail calls of the given blocks lead to from a root. -/
inductive TailReached (analysis : Analysis A) (root : FunctionView A)
    (blocks : List (BasicBlock A)) : FunctionView A → Prop
  | root : TailReached analysis root blocks root
  | tailCall {f g : FunctionView A} {block : BasicBlock A} {edge : Edge}
      (hf : TailReached analysis root blocks f) (hblock : block ∈ f.blocks)
      (hmem : block ∈ blocks) (hedge : edge ∈ block.succs) (hkind : edge.kind = .tailCall)
      (hg : analysis.functions.get? edge.target = some g) : TailReached analysis root blocks g

theorem TailReached.mono {analysis : Analysis A} {root f : FunctionView A}
    {blocks blocks' : List (BasicBlock A)} (hsub : ∀ b ∈ blocks, b ∈ blocks')
    (h : TailReached analysis root blocks f) : TailReached analysis root blocks' f := by
  induction h with
  | root => exact .root
  | tailCall _ hblock hmem hedge hkind hg ih =>
    exact .tailCall ih hblock (hsub _ hmem) hedge hkind hg

namespace TailWalk

variable {analysis : Analysis A} {root : FunctionView A} {s : TailWalk A}

/-- What the walk keeps. `entered` stands for the function that a turn is going through, of which
    not every block is gathered yet. -/
structure Gathered (analysis : Analysis A) (root : FunctionView A) (entered : Option UInt64)
    (s : TailWalk A) : Prop where
  roots : ∀ block ∈ root.blocks, block ∈ s.blocks
  distinct : (s.blocks.map (·.addr)).Nodup
  seen : ∀ a, a ∈ s.seenBlocks ↔ ∃ block ∈ s.blocks, block.addr = a
  followed : ∀ block ∈ s.blocks, ∀ a ∈ tailTargets block, a ∈ s.seenFunctions ∨ a ∈ s.pending
  complete : ∀ a ∈ s.seenFunctions, entered ≠ some a → ∀ f, analysis.functions.get? a = some f →
    ∀ block ∈ f.blocks, block.addr ∈ s.seenBlocks
  reached : ∀ block ∈ s.blocks, ∃ f, TailReached analysis root s.blocks f ∧ block ∈ f.blocks
  called : ∀ a ∈ s.pending, ∃ block ∈ s.blocks, a ∈ tailTargets block

/-- A pending function that is recorded is reached. -/
theorem Gathered.tailReached {entered : Option UInt64} (h : Gathered analysis root entered s)
    {a : UInt64} {g : FunctionView A} (ha : ∃ block ∈ s.blocks, a ∈ tailTargets block)
    (hg : analysis.functions.get? a = some g) : TailReached analysis root s.blocks g := by
  obtain ⟨block, hblock, htarget⟩ := ha
  obtain ⟨edge, hedge, hkind, rfl⟩ := mem_tailTargets.mp htarget
  obtain ⟨f, hf, hmem⟩ := h.reached block hblock
  exact .tailCall hf hmem hblock hedge hkind hg

theorem gathered_start (hdistinct : (root.blocks.map (·.addr)).Nodup)
    (hroot : ∀ f, analysis.functions.get? root.addr = some f → f = root) :
    Gathered analysis root none (start root) where
  roots _ hblock := hblock
  distinct := hdistinct
  seen a := by simp [start]
  followed block hblock a ha := by
    refine Or.inr (List.mem_reverse.mpr (List.mem_flatMap.mpr ⟨block, hblock, ha⟩))
  complete a ha _ f hf block hblock := by
    obtain rfl := OrdSet.mem_singleton.mp ha
    obtain rfl := hroot f hf
    exact OrdSet.mem_ofList.mpr (List.mem_map_of_mem hblock)
  reached _ hblock := ⟨root, .root, hblock⟩
  called a ha := List.mem_flatMap.mp (List.mem_reverse.mp ha)

/-- Adding a block of a reached function keeps the invariant, and its address is then seen. -/
theorem Gathered.addBlock {entered : Option UInt64} (h : Gathered analysis root entered s)
    {f : FunctionView A} {block : BasicBlock A} (hf : TailReached analysis root s.blocks f)
    (hblock : block ∈ f.blocks) :
    Gathered analysis root entered (s.addBlock block) ∧
      block.addr ∈ (s.addBlock block).seenBlocks ∧
      (∀ a ∈ s.seenBlocks, a ∈ (s.addBlock block).seenBlocks) ∧
      ∀ b ∈ s.blocks, b ∈ (s.addBlock block).blocks := by
  unfold TailWalk.addBlock
  split
  · next hseen => exact ⟨h, hseen, fun _ ha => ha, fun _ hb => hb⟩
  · next hnew =>
    have hsub : ∀ b ∈ s.blocks, b ∈ s.blocks ++ [block] := fun b hb => List.mem_append_left _ hb
    have hlast : block ∈ s.blocks ++ [block] := List.mem_append_right _ (List.mem_singleton_self _)
    have hcase : ∀ b ∈ s.blocks ++ [block], b ∈ s.blocks ∨ b = block := fun b hb =>
      (List.mem_append.mp hb).imp_right List.mem_singleton.mp
    refine ⟨⟨?_, ?_, ?_, ?_, ?_, ?_, ?_⟩, OrdSet.mem_insert.mpr (Or.inl rfl),
      fun a ha => OrdSet.mem_insert.mpr (Or.inr ha), hsub⟩
    · exact fun b hb => hsub b (h.roots b hb)
    · rw [List.map_append, List.map_singleton, List.nodup_append]
      refine ⟨h.distinct, List.nodup_singleton _, fun a ha b hb heq => hnew ?_⟩
      rw [← List.mem_singleton.mp hb, ← heq]
      obtain ⟨b', hb', rfl⟩ := List.mem_map.mp ha
      exact (h.seen _).mpr ⟨b', hb', rfl⟩
    · intro a
      rw [OrdSet.mem_insert, h.seen]
      constructor
      · rintro (rfl | ⟨b, hb, rfl⟩)
        · exact ⟨block, hlast, rfl⟩
        · exact ⟨b, hsub b hb, rfl⟩
      · rintro ⟨b, hb, rfl⟩
        obtain hb | rfl := hcase b hb
        · exact Or.inr ⟨b, hb, rfl⟩
        · exact Or.inl rfl
    · intro b hb a ha
      obtain hb | rfl := hcase b hb
      · exact (h.followed b hb a ha).imp_right (List.mem_append_right _)
      · exact Or.inr (List.mem_append_left _ (List.mem_reverse.mpr ha))
    · intro a ha hentered g hg b hb
      exact OrdSet.mem_insert.mpr (Or.inr (h.complete a ha hentered g hg b hb))
    · intro b hb
      obtain hb | rfl := hcase b hb
      · obtain ⟨g, hg, hmem⟩ := h.reached b hb
        exact ⟨g, hg.mono hsub, hmem⟩
      · exact ⟨f, hf.mono hsub, hblock⟩
    · intro a ha
      obtain ha | ha := List.mem_append.mp ha
      · exact ⟨block, hlast, List.mem_reverse.mp ha⟩
      · obtain ⟨b, hb, htarget⟩ := h.called a ha
        exact ⟨b, hsub b hb, htarget⟩

/-- Adding the blocks of a reached function. -/
theorem Gathered.addBlocks {entered : Option UInt64} {f : FunctionView A}
    {blocks : List (BasicBlock A)} (h : Gathered analysis root entered s)
    (hf : TailReached analysis root s.blocks f) (hblocks : ∀ b ∈ blocks, b ∈ f.blocks) :
    Gathered analysis root entered (blocks.foldl TailWalk.addBlock s) ∧
      (∀ b ∈ blocks, b.addr ∈ (blocks.foldl TailWalk.addBlock s).seenBlocks) ∧
      ∀ a ∈ s.seenBlocks, a ∈ (blocks.foldl TailWalk.addBlock s).seenBlocks := by
  induction blocks generalizing s with
  | nil => exact ⟨h, fun b hb => absurd hb List.not_mem_nil, fun a ha => ha⟩
  | cons block blocks ih =>
    obtain ⟨h', hseen, hkeep, hsub⟩ := h.addBlock hf (hblocks block List.mem_cons_self)
    obtain ⟨hall, hadded, hkept⟩ :=
      ih h' (hf.mono hsub) fun b hb => hblocks b (List.mem_cons_of_mem _ hb)
    refine ⟨hall, fun b hb => ?_, fun a ha => hkept a (hkeep a ha)⟩
    obtain rfl | hb := List.mem_cons.mp hb
    · exact hkept _ hseen
    · exact hadded b hb

/-- A turn keeps the invariant: what it goes through is complete at its end. -/
theorem Gathered.serve {address : UInt64} {pending : List UInt64} (h : Gathered analysis root none s)
    (hpending : s.pending = address :: pending) :
    Gathered analysis root none (serve analysis { s with pending := pending } address) := by
  have hcalled := h.called address (by rw [hpending]; exact List.mem_cons_self)
  have hrest : ∀ a ∈ pending, ∃ block ∈ s.blocks, a ∈ tailTargets block := fun a ha =>
    h.called a (by rw [hpending]; exact List.mem_cons_of_mem _ ha)
  have hfollowed : ∀ block ∈ s.blocks, ∀ a ∈ tailTargets block,
      (a = address ∨ a ∈ s.seenFunctions) ∨ a ∈ pending := by
    intro block hblock a ha
    obtain hseen | hwaits := h.followed block hblock a ha
    · exact Or.inl (Or.inr hseen)
    · rw [hpending] at hwaits
      obtain rfl | hwaits := List.mem_cons.mp hwaits
      · exact Or.inl (Or.inl rfl)
      · exact Or.inr hwaits
  by_cases hseen : address ∈ s.seenFunctions
  · rw [serve_seen (s := { s with pending := pending }) hseen]
    refine ⟨h.roots, h.distinct, h.seen, fun block hblock a ha => ?_, h.complete, h.reached, hrest⟩
    obtain (rfl | hold) | hwaits := hfollowed block hblock a ha
    · exact Or.inl hseen
    · exact Or.inl hold
    · exact Or.inr hwaits
  · have hentered : Gathered analysis root (some address)
        { s with pending := pending, seenFunctions := s.seenFunctions.insert address } := by
      refine ⟨h.roots, h.distinct, h.seen, fun block hblock a ha => ?_, ?_, h.reached, hrest⟩
      · exact (hfollowed block hblock a ha).imp_left OrdSet.mem_insert.mpr
      · intro a ha hne f hf
        obtain rfl | ha := OrdSet.mem_insert.mp ha
        · exact absurd rfl hne
        · exact h.complete a ha (fun hnone => nomatch hnone) f hf
    rw [serve_new (s := { s with pending := pending }) hseen]
    cases hget : analysis.functions.get? address with
    | none =>
      refine { hentered with complete := fun a ha _ f hf => ?_ }
      by_cases heq : address = a
      · rw [← heq, hget] at hf
        cases hf
      · exact hentered.complete a ha (fun h => heq (Option.some.inj h)) f hf
    | some target =>
      obtain ⟨hall, hadded, hkept⟩ :=
        hentered.addBlocks (hentered.tailReached hcalled hget) fun b hb => hb
      refine { hall with complete := fun a ha _ f hf => ?_ }
      by_cases heq : address = a
      · subst heq
        obtain rfl := Option.some.inj (hget.symm.trans hf)
        exact hadded
      · exact hall.complete a ha (fun h => heq (Option.some.inj h)) f hf

/-- The walk ends with an empty stack and the invariant. -/
theorem Gathered.run (h : Gathered analysis root none s) :
    Gathered analysis root none (s.run analysis) ∧ (s.run analysis).pending = [] := by
  fun_induction TailWalk.run analysis s with
  | case1 s hnil => exact ⟨h, hnil⟩
  | case2 s address pending hcons ih => exact ih (h.serve hcons)

end TailWalk

theorem pairwise_sortByAddr (blocks : List (BasicBlock A)) :
    (blocks.mergeSort fun a b => decide (a.addr ≤ b.addr)).Pairwise fun a b => a.addr ≤ b.addr := by
  have htrans : ∀ a b c : BasicBlock A, decide (a.addr ≤ b.addr) = true →
      decide (b.addr ≤ c.addr) = true → decide (a.addr ≤ c.addr) = true := fun a b c hab hbc =>
    decide_eq_true (le_trans (of_decide_eq_true hab) (of_decide_eq_true hbc))
  have htotal : ∀ a b : BasicBlock A,
      (decide (a.addr ≤ b.addr) || decide (b.addr ≤ a.addr)) = true := by
    intro a b
    simpa using le_total a.addr b.addr
  exact (List.pairwise_mergeSort htrans htotal blocks).imp of_decide_eq_true

/-- A function with the blocks behind its tail calls is sorted, holds one block at each address,
    every block of the function, and is closed under tail calls: a function that one of its blocks
    tail-calls has all of its addresses among them. -/
theorem functionWithTailBlocks_closed (analysis : Analysis A) (root : FunctionView A)
    (hdistinct : (root.blocks.map (·.addr)).Nodup)
    (hroot : ∀ f, analysis.functions.get? root.addr = some f → f = root) :
    (functionWithTailBlocks analysis root).addr = root.addr ∧
      (functionWithTailBlocks analysis root).blocks.Pairwise (fun a b => a.addr < b.addr) ∧
      (∀ block ∈ root.blocks, block ∈ (functionWithTailBlocks analysis root).blocks) ∧
      (∀ block ∈ (functionWithTailBlocks analysis root).blocks, ∀ edge ∈ block.succs,
        edge.kind = .tailCall → ∀ f, analysis.functions.get? edge.target = some f →
        ∀ b ∈ f.blocks, ∃ b' ∈ (functionWithTailBlocks analysis root).blocks, b'.addr = b.addr) ∧
      ∀ block ∈ (functionWithTailBlocks analysis root).blocks, ∃ f,
        TailReached analysis root (functionWithTailBlocks analysis root).blocks f ∧
          block ∈ f.blocks := by
  obtain ⟨h, hnil⟩ := (TailWalk.gathered_start hdistinct hroot).run
  have hmem : ∀ b, b ∈ (functionWithTailBlocks analysis root).blocks ↔
      b ∈ ((TailWalk.start root).run analysis).blocks := fun b => List.mem_mergeSort
  refine ⟨rfl, ?_, fun b hb => (hmem b).mpr (h.roots b hb), ?_, fun block hblock => ?_⟩
  · have hsorted : (functionWithTailBlocks analysis root).blocks.Pairwise
        fun a b => a.addr ≤ b.addr := pairwise_sortByAddr _
    have hdistinct' : ((functionWithTailBlocks analysis root).blocks.map (·.addr)).Nodup :=
      ((List.mergeSort_perm _ _).map _).nodup_iff.mpr h.distinct
    refine (hsorted.and (List.pairwise_map.mp hdistinct')).imp fun {a b} hab => ?_
    exact lt_of_le_of_ne hab.1 hab.2
  · intro block hblock edge hedge hkind f hf b hb
    have htarget : edge.target ∈ tailTargets block := mem_tailTargets.mpr ⟨edge, hedge, hkind, rfl⟩
    obtain hseen | hwaits := h.followed block ((hmem block).mp hblock) edge.target htarget
    · obtain ⟨b', hb', haddr⟩ := (h.seen b.addr).mp
        (h.complete edge.target hseen (fun hnone => nomatch hnone) f hf b hb)
      exact ⟨b', (hmem b').mpr hb', haddr⟩
    · rw [hnil] at hwaits
      exact absurd hwaits List.not_mem_nil
  · obtain ⟨f, hf, hin⟩ := h.reached block ((hmem block).mp hblock)
    exact ⟨f, hf.mono fun b hb => (hmem b).mpr hb, hin⟩

/-! ## Two functions that tail-call each other -/

/-- The second function shares the block of the first, and both end in a tail call. -/
def tailCalls : Analysis .x64 where
  image :=
    { sections := [], externalBindings := ∅, uninitialized := [], mappedBytes := []
      decodeAt := fun _ => .error "no code"
      format := .elf, entryPoint := none, sectionFiles := [], importLocations := ∅
      primaryCode := [], deadData := [], elfPltRanges := [], opKinds := fun _ => [] }
  seeds := ∅
  graph := .empty
  functions := .ofList
    [(0x1000, ⟨0x1000, [⟨0x1000, [], [⟨0x2000, .tailCall⟩]⟩]⟩),
     (0x2000, ⟨0x2000, [⟨0x2000, [], [⟨0x1000, .tailCall⟩]⟩, ⟨0x1000, [], []⟩]⟩)]
  noreturn := ∅

theorem functionWithTailBlocks_closed_tailCalls : ∃ root,
    tailCalls.functions.get? 0x1000 = some root ∧
      (functionWithTailBlocks tailCalls root).addr = root.addr ∧
      (functionWithTailBlocks tailCalls root).blocks.Pairwise (fun a b => a.addr < b.addr) ∧
      (∀ block ∈ root.blocks, block ∈ (functionWithTailBlocks tailCalls root).blocks) ∧
      (∀ block ∈ (functionWithTailBlocks tailCalls root).blocks, ∀ edge ∈ block.succs,
        edge.kind = .tailCall → ∀ f, tailCalls.functions.get? edge.target = some f →
        ∀ b ∈ f.blocks, ∃ b' ∈ (functionWithTailBlocks tailCalls root).blocks, b'.addr = b.addr) ∧
      ∀ block ∈ (functionWithTailBlocks tailCalls root).blocks, ∃ f,
        TailReached tailCalls root (functionWithTailBlocks tailCalls root).blocks f ∧
          block ∈ f.blocks := by
  have hget : tailCalls.functions.get? 0x1000 =
      some ⟨0x1000, [⟨0x1000, [], [⟨0x2000, .tailCall⟩]⟩]⟩ := rfl
  exact ⟨_, hget, functionWithTailBlocks_closed tailCalls _ (List.nodup_singleton _)
    fun f hf => (Option.some.inj (hget.symm.trans hf)).symm⟩

/-- Two functions that tail-call each other; the first one has a second block. -/
def mutualTailCalls : Analysis .x64 :=
  { tailCalls with
    functions := .ofList
      [(0x1000, ⟨0x1000, [⟨0x1000, [], [⟨0x2000, .tailCall⟩]⟩, ⟨0x1010, [], []⟩]⟩),
       (0x2000, ⟨0x2000, [⟨0x2000, [], [⟨0x1000, .tailCall⟩]⟩]⟩)] }

/-- A root that is not the function recorded at its address: the walk takes that function for gone
    through, and its second block stays away although a returned block tail-calls it. -/
theorem functionWithTailBlocks_otherRoot : ∃ root : FunctionView .x64,
    (root.blocks.map (·.addr)).Nodup ∧
      ∃ block ∈ (functionWithTailBlocks mutualTailCalls root).blocks, ∃ edge ∈ block.succs,
        edge.kind = .tailCall ∧ ∃ f, mutualTailCalls.functions.get? edge.target = some f ∧
          ∃ b ∈ f.blocks,
            ¬ ∃ b' ∈ (functionWithTailBlocks mutualTailCalls root).blocks, b'.addr = b.addr := by
  let first : BasicBlock .x64 := ⟨0x1000, [], [⟨0x2000, .tailCall⟩]⟩
  let second : BasicBlock .x64 := ⟨0x2000, [], [⟨0x1000, .tailCall⟩]⟩
  have hrun : ((TailWalk.start ⟨0x1000, [first]⟩).run mutualTailCalls).blocks =
      [first, second] := by
    rw [TailWalk.run]
    change (TailWalk.run _ ⟨[first, second], _, _, [0x1000]⟩).blocks = _
    rw [TailWalk.run]
    change (TailWalk.run _ ⟨[first, second], _, _, []⟩).blocks = _
    rw [TailWalk.run]
  have hmem : ∀ b, b ∈ (functionWithTailBlocks mutualTailCalls ⟨0x1000, [first]⟩).blocks ↔
      b = first ∨ b = second := by
    intro b
    rw [functionWithTailBlocks, List.mem_mergeSort, hrun, List.mem_cons, List.mem_singleton]
  refine ⟨⟨0x1000, [first]⟩, List.nodup_singleton _, second, (hmem second).mpr (Or.inr rfl), _,
    List.mem_singleton_self _, rfl, _, rfl, ⟨0x1010, [], []⟩,
    List.mem_cons_of_mem _ (List.mem_singleton_self _), ?_⟩
  rintro ⟨b', hb', haddr⟩
  obtain rfl | rfl := (hmem b').mp hb'
  · exact absurd haddr (by decide)
  · exact absurd haddr (by decide)

/-! ## The functions of an analysis -/

/-- Every function is recorded under its address, with one block at each address. -/
def Analysis.Keyed (analysis : Analysis A) : Prop :=
  ∀ address f, analysis.functions.get? address = some f →
    f.addr = address ∧ (f.blocks.map (·.addr)).Nodup

theorem buildFunctionView_keyed {analysis : Analysis A} {start : UInt64} {isolateStart : Bool}
    {f : FunctionView A} (h : buildFunctionView analysis start isolateStart = .ok f) :
    f.addr = start ∧ (f.blocks.map (·.addr)).Nodup := by
  unfold buildFunctionView at h
  split at h
  · cases h
  · next reachable _ =>
    obtain rfl := Except.ok.inj h
    refine ⟨rfl, ?_⟩
    dsimp only
    -- The addresses of the blocks are the starts that they are built from.
    rw [List.map_map]
    apply (congrArg List.Nodup (List.map_id' _)).mpr
    exact (blockStarts analysis start reachable).nodup.filter _

/-- Views are stored under their starts. -/
theorem materialize_keyed (s : Discovery A) : (materialize s).Keyed := by
  unfold materialize
  refine List.foldlRecOn _ _ ?_ fun analysis h start _ => ?_
  · exact fun _ _ hget => nomatch hget
  · split
    · next f hf =>
      intro address g hget
      rw [OrdMap.get?_upsert] at hget
      split at hget
      · next heq =>
        obtain rfl := Option.some.inj hget
        rw [heq]
        exact buildFunctionView_keyed hf
      · exact h address g hget
    · exact h

section

variable {paths : RecoveryPaths A} {fallback seeds : SeedMap}

theorem recoverFunctions_keyed {noreturn : OrdSet UInt64} {analysis recovered : Analysis A}
    {next : OrdSet UInt64}
    (h : (recoverFunctions paths fallback noreturn analysis).outcome = .ok (recovered, next)) :
    recovered.Keyed := by
  obtain ⟨s, -, hs⟩ := Control.Logged.outcome_bind.mp h
  obtain rfl := (Prod.mk.inj (Except.ok.inj hs)).1
  exact materialize_keyed s

theorem recoverPasses_keyed {diagnostics : List RecoveryDiagnostic} {passes : Nat}
    {noreturn : OrdSet UInt64} {image : RecoveryImage A} {analysis : Analysis A}
    (h : (recoverPasses paths seeds fallback diagnostics passes noreturn image).outcome =
      .ok analysis) : analysis.Keyed := by
  induction passes generalizing noreturn image with
  | zero =>
    obtain rfl := Except.ok.inj h
    exact fun _ _ hget => nomatch hget
  | succ passes ih =>
    obtain ⟨⟨recovered, next⟩, hrecovered, hrest⟩ := Control.Logged.outcome_bind.mp h
    dsimp only at hrest
    split at hrest
    · obtain rfl := Except.ok.inj hrest
      intro address f hget
      exact recoverFunctions_keyed hrecovered address f hget
    · exact ih hrest

/-- What recovery hands on is keyed, so each of its functions may be the root of a walk. -/
theorem analyzeImage_keyed {backend : RecoveryBackend} {image : RecoveryImage A}
    {tables : List (UInt64 × SeedKind)} {diagnostics : List RecoveryDiagnostic}
    {analysis : Analysis A}
    (h : (analyzeImage paths backend image tables diagnostics).outcome = .ok analysis) :
    analysis.Keyed := by
  obtain ⟨_, -, h⟩ := Control.Logged.outcome_bind.mp h
  obtain ⟨_, -, h⟩ := Control.Logged.outcome_bind.mp h
  obtain ⟨_, -, h⟩ := Control.Logged.outcome_bind.mp h
  exact recoverPasses_keyed h

/-- A function of a keyed analysis is the one at its address. -/
theorem Analysis.Keyed.root {analysis : Analysis A} (h : analysis.Keyed) {address : UInt64}
    {root : FunctionView A} (hget : analysis.functions.get? address = some root) :
    (root.blocks.map (·.addr)).Nodup ∧
      ∀ f, analysis.functions.get? root.addr = some f → f = root := by
  obtain ⟨haddr, hdistinct⟩ := h address root hget
  refine ⟨hdistinct, fun f hf => ?_⟩
  rw [haddr, hget] at hf
  exact (Option.some.inj hf).symm

end

end CapaX.Recovery
