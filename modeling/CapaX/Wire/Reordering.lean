import CapaX.Wire.Rewriting

/-
  The order in which a document lists the units of a level says nothing: two listings of the same
  units, each level in its own order, load as the same tree (`loads_reordered`). What it takes is
  that no level lists two units at one address, where the later one would win.
-/

namespace CapaX

open Json Collections

/-- The units of one level in two orders, each unit related to its counterpart. -/
def LevelReordered {β : Type} (R : β → β → Prop) (us us' : List β) : Prop :=
  ∃ mid, us.Perm mid ∧ List.Forall₂ R mid us'

theorem map_unit_eq {β γ : Type} {unit : β → γ} {us us' : List β}
    (h : List.Forall₂ (fun u u' => unit u = unit u') us us') : us.map unit = us'.map unit := by
  induction h with
  | nil => rfl
  | cons head _ ih => rw [List.map_cons, List.map_cons, head, ih]

/-- A level collects to the same map in both orders. -/
theorem LevelReordered.ofList_eq {β α : Type} {R : β → β → Prop} {us us' : List β}
    (h : LevelReordered R us us') (unit : β → Address × α)
    (hunit : ∀ u ∈ us, ∀ u', R u u' → unit u = unit u') (hd : ((us.map unit).map (·.1)).Nodup) :
    OrdMap.ofList (us.map unit) = OrdMap.ofList (us'.map unit) := by
  obtain ⟨mid, hperm, hrel⟩ := h
  have hmid : List.Forall₂ (fun u u' => unit u = unit u') mid us' :=
    (List.forall₂_iff_zip.mpr ⟨hrel.length_eq, fun {u u'} hzip =>
      hunit u (hperm.mem_iff.mpr (List.of_mem_zip hzip).1) u'
        ((List.forall₂_iff_zip.mp hrel).2 hzip)⟩)
  rw [OrdMap.ofList_perm hd (hperm.map unit), map_unit_eq hmid]

/-! ## Static listings -/

def ListedBasicBlock.Reordered (b b' : ListedBasicBlock) : Prop :=
  b.address = b'.address ∧
    b.features.map ListedFeature.located = b'.features.map ListedFeature.located ∧
    LevelReordered (fun i i' => i.unit = i'.unit) b.instructions b'.instructions

def ListedFunction.Reordered (f f' : ListedFunction) : Prop :=
  f.address = f'.address ∧
    f.features.map ListedFeature.located = f'.features.map ListedFeature.located ∧
    LevelReordered ListedBasicBlock.Reordered f.basicBlocks f'.basicBlocks

/-- No level lists two units at one address. -/
def ListedBasicBlock.Distinct (b : ListedBasicBlock) : Prop :=
  (b.instructions.map ListedInstruction.address).Nodup

@[inherit_doc ListedBasicBlock.Distinct]
def ListedFunction.Distinct (f : ListedFunction) : Prop :=
  (f.basicBlocks.map ListedBasicBlock.address).Nodup ∧ ∀ b ∈ f.basicBlocks, b.Distinct

theorem ListedBasicBlock.Reordered.unit_eq {b b' : ListedBasicBlock} (h : b.Reordered b')
    (hd : b.Distinct) : b.unit = b'.unit := by
  obtain ⟨haddress, hfeatures, hlevel⟩ := h
  have hinstructions := hlevel.ofList_eq ListedInstruction.unit (fun _ _ _ he => he)
    (by rw [List.map_map]; exact hd)
  unfold ListedBasicBlock.unit
  rw [haddress, hfeatures, hinstructions]

theorem ListedFunction.Reordered.unit_eq {f f' : ListedFunction} (h : f.Reordered f')
    (hd : f.Distinct) : f.unit = f'.unit := by
  obtain ⟨haddress, hfeatures, hlevel⟩ := h
  have hblocks := hlevel.ofList_eq ListedBasicBlock.unit
    (fun b hb _ hr => hr.unit_eq (hd.2 b hb)) (by rw [List.map_map]; exact hd.1)
  unfold ListedFunction.unit
  rw [haddress, hfeatures, hblocks]

/-! ## Dynamic listings -/

def ListedThread.Reordered (t t' : ListedThread) : Prop :=
  t.address = t'.address ∧
    t.features.map ListedFeature.located = t'.features.map ListedFeature.located ∧
    LevelReordered (fun c c' => c.unit = c'.unit) t.calls t'.calls

def ListedProcess.Reordered (p p' : ListedProcess) : Prop :=
  p.address = p'.address ∧ p.name = p'.name ∧
    p.features.map ListedFeature.located = p'.features.map ListedFeature.located ∧
    LevelReordered ListedThread.Reordered p.threads p'.threads

@[inherit_doc ListedBasicBlock.Distinct]
def ListedThread.Distinct (t : ListedThread) : Prop := (t.calls.map ListedCall.address).Nodup

@[inherit_doc ListedBasicBlock.Distinct]
def ListedProcess.Distinct (p : ListedProcess) : Prop :=
  (p.threads.map ListedThread.address).Nodup ∧ ∀ t ∈ p.threads, t.Distinct

theorem ListedThread.Reordered.unit_eq {t t' : ListedThread} (h : t.Reordered t')
    (hd : t.Distinct) : t.unit = t'.unit := by
  obtain ⟨haddress, hfeatures, hlevel⟩ := h
  have hcalls := hlevel.ofList_eq ListedCall.unit (fun _ _ _ he => he)
    (by rw [List.map_map]; exact hd)
  unfold ListedThread.unit
  rw [haddress, hfeatures, hcalls]

theorem ListedProcess.Reordered.unit_eq {p p' : ListedProcess} (h : p.Reordered p')
    (hd : p.Distinct) : p.unit = p'.unit := by
  obtain ⟨haddress, hname, hfeatures, hlevel⟩ := h
  have hthreads := hlevel.ofList_eq ListedThread.unit
    (fun t ht _ hr => hr.unit_eq (hd.2 t ht)) (by rw [List.map_map]; exact hd.1)
  unfold ListedProcess.unit
  rw [haddress, hname, hfeatures, hthreads]

/-! ## Whole listings -/

/-- The same sample, each level of units in its own order. Descriptions may differ. -/
def Listing.Reordered : Listing → Listing → Prop
  | .static_ sample s, .static_ sample' s' =>
    sample = sample' ∧ s.global_.map ListedGlobal.feature = s'.global_.map ListedGlobal.feature ∧
      s.file.map ListedFeature.located = s'.file.map ListedFeature.located ∧
      LevelReordered ListedFunction.Reordered s.functions s'.functions
  | .dynamic sample d, .dynamic sample' d' =>
    sample = sample' ∧ d.global_.map ListedGlobal.feature = d'.global_.map ListedGlobal.feature ∧
      d.file.map ListedFeature.located = d'.file.map ListedFeature.located ∧
      LevelReordered ListedProcess.Reordered d.processes d'.processes
  | _, _ => False

@[inherit_doc ListedBasicBlock.Distinct]
def Listing.Distinct : Listing → Prop
  | .static_ _ s => (s.functions.map ListedFunction.address).Nodup ∧ ∀ f ∈ s.functions, f.Distinct
  | .dynamic _ d => (d.processes.map ListedProcess.address).Nodup ∧ ∀ p ∈ d.processes, p.Distinct

theorem Listing.Reordered.freeze_eq {l l' : Listing} (h : l.Reordered l') (hd : l.Distinct) :
    l.freeze = l'.freeze := by
  cases l with
  | static_ sample s =>
    cases l' with
    | static_ sample' s' =>
      obtain ⟨hsample, hglobal, hfile, hlevel⟩ := h
      have hfunctions := hlevel.ofList_eq ListedFunction.unit
        (fun f hf _ hr => hr.unit_eq (hd.2 f hf)) (by rw [List.map_map]; exact hd.1)
      show Freeze.static_ sample s.tree = Freeze.static_ sample' s'.tree
      unfold ListedStatic.tree
      rw [hsample, hglobal, hfile, hfunctions]
    | dynamic sample' d' => exact h.elim
  | dynamic sample d =>
    cases l' with
    | static_ sample' s' => exact h.elim
    | dynamic sample' d' =>
      obtain ⟨hsample, hglobal, hfile, hlevel⟩ := h
      have hprocesses := hlevel.ofList_eq ListedProcess.unit
        (fun p hp _ hr => hr.unit_eq (hd.2 p hp)) (by rw [List.map_map]; exact hd.1)
      show Freeze.dynamic sample d.tree = Freeze.dynamic sample' d'.tree
      unfold ListedDynamic.tree
      rw [hsample, hglobal, hfile, hprocesses]

/-- Two documents that list the same units, each level in its own order, load as one sample. -/
theorem loads_reordered [DebugJson] [RegexBackend] {l l' : Listing} (h : l.OnWire)
    (h' : l'.OnWire) (hd : l.Distinct) (hr : l.Reordered l') :
    ∃ document document', l.write = some document ∧ l'.write = some document' ∧
      loads document = .ok l.freeze ∧ loads document' = .ok l.freeze := by
  obtain ⟨document, hwrite, hload⟩ := loads_write h
  obtain ⟨document', hwrite', hload'⟩ := loads_write h'
  rw [← hr.freeze_eq hd] at hload'
  exact ⟨document, document', hwrite, hwrite', hload, hload'⟩

/-- A function at `0x2000` listed before and after one at `0x1000`. -/
def twoFunctions (first second : UInt64) : Listing :=
  .static_ ⟨.absolute 0x1000, ⟨"", "", ""⟩⟩ ⟨[⟨.os "linux", none⟩], [],
    [⟨.absolute first, [], [⟨.absolute first, [⟨.absolute first, .basicBlock, none⟩], []⟩]⟩,
      ⟨.absolute second, [], [⟨.absolute second, [⟨.absolute second, .basicBlock, none⟩], []⟩]⟩]⟩

theorem twoFunctions_onWire [RegexBackend] (first second : UInt64) :
    (twoFunctions first second).OnWire := by
  refine ⟨?_, ?_, ?_⟩
  · exact fun g hg => by rw [List.mem_singleton.mp hg]; trivial
  · exact fun f hf => absurd hf List.not_mem_nil
  · intro f hf
    have hblock (a : UInt64) : (ListedFunction.mk (.absolute a) []
        [⟨.absolute a, [⟨.absolute a, .basicBlock, none⟩], []⟩]).OnWire := by
      refine ⟨fun _ h => absurd h List.not_mem_nil, fun b hb => ?_⟩
      rw [List.mem_singleton.mp hb]
      refine ⟨fun g hg => ?_, fun _ h => absurd h List.not_mem_nil⟩
      rw [List.mem_singleton.mp hg]
      trivial
    obtain rfl | hf := List.mem_cons.mp hf
    · exact hblock first
    · rw [List.mem_singleton.mp hf]
      exact hblock second

theorem loads_reordered_twoFunctions :
    ∃ document document', (twoFunctions 0x2000 0x1000).write = some document ∧
      (twoFunctions 0x1000 0x2000).write = some document' ∧
      @loads .blank .empty document = .ok (twoFunctions 0x2000 0x1000).freeze ∧
      @loads .blank .empty document' = .ok (twoFunctions 0x2000 0x1000).freeze := by
  refine @loads_reordered .blank .empty _ _ (@twoFunctions_onWire .empty _ _)
    (@twoFunctions_onWire .empty _ _) ⟨by decide, ?_⟩ ⟨rfl, rfl, rfl, ?_⟩
  · intro f hf
    obtain rfl | hf := List.mem_cons.mp hf
    · exact ⟨by decide, fun b hb => by rw [List.mem_singleton.mp hb]; exact List.nodup_nil⟩
    · rw [List.mem_singleton.mp hf]
      exact ⟨by decide, fun b hb => by rw [List.mem_singleton.mp hb]; exact List.nodup_nil⟩
  · have hsame (f : ListedFunction) (hf : f.basicBlocks.length = 1) : f.Reordered f := by
      refine ⟨rfl, rfl, f.basicBlocks, List.Perm.refl _, ?_⟩
      exact List.forall₂_same.mpr fun b _ =>
        ⟨rfl, rfl, b.instructions, List.Perm.refl _, List.forall₂_same.mpr fun _ _ => rfl⟩
    exact ⟨_, List.Perm.swap _ _ _, .cons (hsame _ rfl) (.cons (hsame _ rfl) .nil)⟩

end CapaX
