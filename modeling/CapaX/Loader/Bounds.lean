import CapaX.Loader.Load

/-
  What the loaders promise about memory: a region is as long as its section says, where the file
  does not decide it, and the regions together stay within the limit, where they are counted.

  `everyStepHasByte_iff`: an executable address has a byte, unless an ELF segment ends before its
  memory does. `mappedTotal_iff`: the sum of the regions is bounded, except that of ELF segments.
-/

namespace CapaX.Loader

open Collections Control Control.Logged ElfOs Recovery

/-! ## Addresses -/

/-- The first section that contains an address, and its place. -/
def FirstAt (sections : List MappedSection) (a : UInt64) (i : Nat) (mapped : MappedSection) :
    Prop :=
  sections[i]? = some mapped ∧ mapped.containsVa a = true ∧
    ∀ j < i, ∀ earlier : MappedSection, sections[j]? = some earlier → earlier.containsVa a = false

/-- The address behind the bytes of an executable section and still inside the section, when no
    earlier section contains it. -/
def CutShort (sections : List MappedSection) (lengths : List Nat) (a : UInt64) : Prop :=
  ∃ i, ∃ mapped : MappedSection, ∃ n, FirstAt sections a i mapped ∧ lengths[i]? = some n ∧
    mapped.permissions.execute = true ∧ n < mapped.virtualSize.toNat ∧
    a.toNat = mapped.address.toNat + n

theorem containsVa_iff {mapped : MappedSection} {a : UInt64} :
    mapped.containsVa a = true ↔ mapped.address.toNat ≤ a.toNat ∧
      a.toNat - mapped.address.toNat < mapped.virtualSize.toNat := by
  rw [MappedSection.containsVa, checkedSub]
  by_cases hle : mapped.address ≤ a
  · rw [if_pos hle]
    simp only [Option.any_some, decide_eq_true_eq, UInt64.lt_iff_toNat_lt,
      UInt64.toNat_sub_of_le _ _ hle]
    rw [UInt64.le_iff_toNat_le] at hle
    omega
  · rw [if_neg hle]
    rw [UInt64.le_iff_toNat_le] at hle
    simp only [Option.any_none, Bool.false_eq_true, false_iff]
    omega

theorem find?_zipIdx_iff {sections : List MappedSection} {a : UInt64} {mapped : MappedSection}
    {i : Nat} :
    (sections.zipIdx.find? fun entry => entry.1.containsVa a) = some (mapped, i) ↔
      FirstAt sections a i mapped := by
  rw [List.find?_eq_some_iff_getElem]
  constructor
  · intro ⟨hcontains, k, hk, hget, hbefore⟩
    rw [List.getElem_zipIdx] at hget
    obtain ⟨rfl, rfl⟩ := Prod.mk.inj hget
    rw [List.length_zipIdx] at hk
    refine ⟨by simp [hk], hcontains, ?_⟩
    intro j hj earlier hearlier
    obtain ⟨hlt, rfl⟩ := List.getElem?_eq_some_iff.mp hearlier
    have hnot := hbefore j (by omega)
    rw [List.getElem_zipIdx] at hnot
    simpa using hnot
  · intro ⟨hget, hcontains, hbefore⟩
    obtain ⟨hlt, rfl⟩ := List.getElem?_eq_some_iff.mp hget
    refine ⟨hcontains, i, by simpa using hlt, by simp, ?_⟩
    intro j hj
    rw [List.getElem_zipIdx]
    simpa using hbefore j hj sections[j] (by simp [hlt.trans' hj])

section

variable {A : Architecture} {image : LoadedImage A} {a : UInt64}

theorem sectionContaining_iff {mapped : MappedSection} :
    image.sectionContaining a = some mapped ↔ ∃ i, FirstAt image.sections a i mapped := by
  rw [LoadedImage.sectionContaining, List.find?_eq_some_iff_getElem]
  constructor
  · intro ⟨hcontains, i, hi, hget, hbefore⟩
    refine ⟨i, by rw [← hget]; simp [hi], hcontains, ?_⟩
    intro j hj earlier hearlier
    obtain ⟨hlt, rfl⟩ := List.getElem?_eq_some_iff.mp hearlier
    simpa using hbefore j hj
  · intro ⟨i, hget, hcontains, hbefore⟩
    obtain ⟨hlt, rfl⟩ := List.getElem?_eq_some_iff.mp hget
    refine ⟨hcontains, i, hlt, rfl, ?_⟩
    intro j hj
    simpa using hbefore j hj image.sections[j] (by simp [hlt.trans' hj])

theorem bytesAt_eq {i n : Nat} {mapped : MappedSection} {data : List UInt8}
    (hfirst : FirstAt image.sections a i mapped) (hdata : image.mappedBytes[i]? = some data) :
    image.bytesAt a n =
      if a.toNat - mapped.address.toNat ≤ data.length then
        some ((data.drop (a.toNat - mapped.address.toNat)).take
          (min n (data.length - (a.toNat - mapped.address.toNat))))
      else none := by
  obtain ⟨hle, -⟩ := containsVa_iff.mp hfirst.2.1
  have hle' : mapped.address ≤ a := UInt64.le_iff_toNat_le.mpr hle
  have hsub : checkedSub a mapped.address = some (a - mapped.address) := if_pos hle'
  rw [LoadedImage.bytesAt, find?_zipIdx_iff.mpr hfirst]
  simp only [Option.bind_eq_bind, Option.bind_some, hsub, hdata, UInt64.toNat_sub_of_le _ _ hle']

/-- An address that recovery may walk has a byte. -/
def EveryStepHasByte (image : LoadedImage A) : Prop :=
  ∀ a, image.isExecutableAddress a = true → ∃ byte, image.bytesAt a 1 = some [byte]

theorem everyStepHasByte_image (hlen : image.mappedBytes.length = image.sections.length) :
    EveryStepHasByte image ↔ ∀ a, CutShort image.sections (image.mappedBytes.map List.length) a →
      image.isUninitialized a = true := by
  constructor
  · intro hbyte a ⟨i, mapped, n, hfirst, hn, hexec, _, ha⟩
    by_contra huninit
    rw [Bool.not_eq_true] at huninit
    rw [List.getElem?_map, Option.map_eq_some_iff] at hn
    obtain ⟨data, hdata, rfl⟩ := hn
    have hbytes : image.bytesAt a 1 = some [] := by
      rw [bytesAt_eq hfirst hdata, if_pos (by omega)]
      simp [ha]
    have hexecutable : image.isExecutableAddress a = true := by
      rw [LoadedImage.isExecutableAddress, sectionContaining_iff.mpr ⟨i, hfirst⟩, hbytes]
      simp [hexec, huninit]
    obtain ⟨byte, hone⟩ := hbyte a hexecutable
    rw [hbytes] at hone
    cases hone
  · intro hcut a hexecutable
    simp only [LoadedImage.isExecutableAddress, Bool.and_eq_true, Bool.not_eq_true'] at hexecutable
    obtain ⟨⟨hexec, huninit⟩, hsome⟩ := hexecutable
    obtain ⟨mapped, hmapped, hexec⟩ := (Option.any_eq_true ..).mp hexec
    obtain ⟨i, hfirst⟩ := sectionContaining_iff.mp hmapped
    obtain ⟨hi, -⟩ := List.getElem?_eq_some_iff.mp hfirst.1
    have hdata := List.getElem?_eq_getElem (show i < image.mappedBytes.length by omega)
    obtain ⟨hle, hlt⟩ := containsVa_iff.mp hfirst.2.1
    rw [bytesAt_eq hfirst hdata] at hsome ⊢
    by_cases hin : a.toNat - mapped.address.toNat < image.mappedBytes[i].length
    · rw [if_pos (by omega), List.drop_eq_getElem_cons hin]
      have hone : min 1 (image.mappedBytes[i].length - (a.toNat - mapped.address.toNat)) = 1 := by
        omega
      exact ⟨_, congrArg some (by rw [hone]; rfl)⟩
    · by_cases hend : a.toNat - mapped.address.toNat ≤ image.mappedBytes[i].length
      · have hbad : CutShort image.sections (image.mappedBytes.map List.length) a :=
          ⟨i, mapped, image.mappedBytes[i].length, hfirst, by simp [hdata], hexec, by omega,
            by omega⟩
        rw [hcut a hbad] at huninit
        cases huninit
      · rw [if_neg hend] at hsome
        cases hsome

theorem not_cutShort_of_backed {sections : List MappedSection} {lengths : List Nat}
    (h : lengths = sections.map (·.virtualSize.toNat)) (a : UInt64) :
    ¬ CutShort sections lengths a := by
  intro ⟨i, mapped, n, hfirst, hn, _, hlt, _⟩
  rw [h, List.getElem?_map, hfirst.1] at hn
  have hlen : mapped.virtualSize.toNat = n := Option.some.inj hn
  omega

end

/-! ## Regions -/

/-- No region is allocated beyond the limit. -/
def Small (event : Event) : Prop := ∀ n, event = .allocated n → n ≤ maxMappedImageBytes

theorem upholds_of_quiet {α : Type} {m : Loading α} (h : Quiet m) {Q : α → Prop}
    (hq : ∀ a, m.outcome = .ok a → Q a) : Upholds Small m Q := by
  refine ⟨fun e he => ?_, hq⟩
  rw [h] at he
  exact absurd he List.not_mem_nil

theorem upholds_orFail {α : Type} {o : Option α} {error : ImageError} :
    Upholds Small (orFail o error) fun a => o = some a :=
  upholds_of_quiet Mapped.quiet_orFail fun _ ha => Mapped.outcome_orFail.mp ha

theorem upholds_mappedRegion {bytes : ByteBuf} {fileOffset fileSize mappedSize : UInt64}
    {format : ImageFormat} :
    Upholds Small (mappedRegion bytes fileOffset fileSize mappedSize format) fun data =>
      data.length = mappedSize.toNat ∧ mappedSize.toNat ≤ maxMappedImageBytes := by
  unfold mappedRegion
  dsimp only
  split
  · exact upholds_throwFault
  · rename_i hmax
    have hle : mappedSize.toNat ≤ maxMappedImageBytes := by omega
    refine (upholds_emit (R := fun _ => True) ?_ trivial).bind fun _ _ => ?_
    · intro n hn
      obtain rfl := Event.allocated.inj hn
      exact hle
    · split
      · split
        · rename_i source hsource
          unfold ElfOs.get at hsource
          split at hsource
          · rename_i hrange
            obtain rfl := Option.some.inj hsource
            apply upholds_pure
            simp only [List.length_append, List.length_take, List.length_drop,
              List.length_replicate]
            omega
          · cases hsource
        · exact upholds_pure ⟨List.length_replicate, hle⟩
      · exact upholds_pure ⟨List.length_replicate, hle⟩

theorem upholds_accountMapping {total size : Nat} :
    Upholds Small (accountMapping total size) fun total' =>
      total' = total + size ∧ total' ≤ maxMappedImageBytes := by
  unfold accountMapping ElfOs.checkedAdd
  by_cases hwide : total + size < 2 ^ 64
  · rw [if_pos hwide]
    dsimp only
    split
    · exact upholds_throwFault
    · exact upholds_pure ⟨rfl, by omega⟩
  · rw [if_neg hwide]
    exact upholds_throwFault

/-- Every region is as long as its section, and the running total is their sum. -/
structure Accounted (regions : Regions) : Prop where
  backed : regions.mappedBytes.map List.length = regions.sections.map (·.virtualSize.toNat)
  summed : (regions.mappedBytes.map List.length).sum = regions.total
  small : regions.total ≤ maxMappedImageBytes

theorem accounted_empty : Accounted Regions.empty := ⟨rfl, rfl, Nat.zero_le _⟩

section

variable {regions : Regions}

theorem Accounted.push (h : Accounted regions) {mapped : MappedSection} {file : SectionFile}
    {data : List UInt8} {total : Nat} (hdata : data.length = mapped.virtualSize.toNat)
    (htotal : total = regions.total + data.length) (hsmall : total ≤ maxMappedImageBytes) :
    Accounted (regions.push mapped file data total) where
  backed := by simp [Regions.push, h.backed, hdata]
  summed := by
    have := h.summed
    simp only [Regions.push, List.map_append, List.sum_append, List.map_cons, List.map_nil,
      List.sum_cons, List.sum_nil]
    omega
  small := hsmall

theorem Accounted.pushDead (h : Accounted regions) (test : Bool) (start stop : UInt64) :
    Accounted (regions.pushDead test start stop) := by
  cases test with
  | false => exact h
  | true => exact ⟨h.backed, h.summed, h.small⟩

theorem Accounted.pushUninitialized (h : Accounted regions) (test : Bool) (start stop : UInt64) :
    Accounted (regions.pushUninitialized test start stop) := by
  cases test with
  | false => exact h
  | true => exact ⟨h.backed, h.summed, h.small⟩

theorem Accounted.pushCode (h : Accounted regions) (test : Bool) (start stop : UInt64) :
    Accounted (regions.pushCode test start stop) := by
  cases test with
  | false => exact h
  | true => exact ⟨h.backed, h.summed, h.small⟩

/-! ## PE -/

theorem upholds_sectionSizes {bytes : ByteBuf} {mapped : PeSection} {next : Option PeSection} :
    Upholds Small (sectionSizes bytes mapped next) fun _ => True := by
  unfold sectionSizes
  dsimp only
  split
  · cases next with
    | none => exact upholds_pure trivial
    | some next => exact upholds_orFail.bind fun _ _ => upholds_pure trivial
  · split
    · exact upholds_pure trivial
    · exact upholds_pure trivial

theorem upholds_mapSection {pe : Pe} {header : OptionalHeader} {bytes : ByteBuf}
    {mapped : PeSection} {next : Option PeSection} (h : Accounted regions) :
    Upholds Small (mapSection pe header bytes mapped next regions) Accounted := by
  refine upholds_orFail.bind fun address _ => upholds_sectionSizes.bind fun sizes _ => ?_
  match sizes with
  | none => exact upholds_pure h
  | some (virtualSize, readSize, alignMapping) =>
    dsimp only
    refine Upholds.ite_bind (Q := fun _ => True) (upholds_orFail.weaken fun _ _ => trivial)
      (upholds_pure trivial) fun mapSize _ => ?_
    split
    · exact upholds_pure h
    · refine upholds_mappedRegion.bind fun data hdata => ?_
      refine upholds_accountMapping.bind fun total htotal => upholds_pure ?_
      apply Accounted.pushCode
      apply Accounted.pushUninitialized
      apply Accounted.pushDead
      exact h.push hdata.1 htotal.1 htotal.2

theorem upholds_mapSections {pe : Pe} {header : OptionalHeader} {bytes : ByteBuf}
    (sections : List PeSection) (h : Accounted regions) :
    Upholds Small (mapSections pe header bytes sections regions) Accounted := by
  induction sections generalizing regions with
  | nil => exact upholds_pure h
  | cons mapped rest ih => exact (upholds_mapSection h).bind fun _ hnext => ih hnext

theorem upholds_mapPe {pe : Pe} {header : OptionalHeader} {bytes : ByteBuf} :
    Upholds Small (mapPe pe header bytes) Accounted := by
  unfold mapPe
  dsimp only
  split
  · exact upholds_throwFault
  · refine upholds_orFail.bind fun size _ => ?_
    split
    · exact upholds_throwFault
    · refine upholds_orFail.bind fun mapSize _ => upholds_mappedRegion.bind fun data hdata => ?_
      refine upholds_accountMapping.bind fun total htotal => upholds_mapSections _ ?_
      exact accounted_empty.push hdata.1 htotal.1 htotal.2

/-! ## Mach-O -/

theorem upholds_mapMachSegment {bytes : ByteBuf} {seg : MachSegment} (h : Accounted regions) :
    Upholds Small (mapMachSegment bytes regions seg) Accounted := by
  unfold mapMachSegment
  split
  · exact upholds_pure h
  · refine upholds_mappedRegion.bind fun data hdata => ?_
    refine upholds_accountMapping.bind fun total htotal => upholds_pure ?_
    apply Accounted.pushCode
    exact h.push hdata.1 htotal.1 htotal.2

theorem quiet_checkSegment (bytes : ByteBuf) (seg : MachSegment) :
    Quiet (checkSegment bytes seg) := by
  refine Mapped.quiet_orFail.bind fun expected => ?_
  split
  · exact quiet_throwFault _
  · split
    · exact quiet_throwFault _
    · split
      · exact quiet_pure _
      · exact quiet_throwFault _

theorem quiet_checkOverlaps (seg : MachSegment) (stop : UInt64) (rest : List MachSegment) :
    Quiet (checkOverlaps seg stop rest) := by
  induction rest with
  | nil => rfl
  | cons other rest ih =>
    rw [checkOverlaps]
    split
    · exact ih
    · refine Mapped.quiet_orFail.bind fun otherStop => ?_
      split
      · exact quiet_throwFault _
      · exact ih

theorem quiet_validateOverlaps (segments : List MachSegment) :
    Quiet (validateNoOverlappingMachoSegments segments) := by
  induction segments with
  | nil => rfl
  | cons seg rest ih =>
    rw [validateNoOverlappingMachoSegments]
    split
    · exact ih
    · exact Mapped.quiet_orFail.bind fun stop => (quiet_checkOverlaps _ _ _).bind fun _ => ih

theorem upholds_mapMacho {segments : List MachSegment} {bytes : ByteBuf} :
    Upholds Small (mapMacho segments bytes) Accounted := by
  have hcheck : Upholds Small (foldRun (fun _ seg => checkSegment bytes seg) () segments)
      fun _ => True :=
    upholds_foldRun (fun _ seg _ _ => upholds_of_quiet (quiet_checkSegment bytes seg)
      fun _ _ => trivial) trivial
  refine hcheck.bind fun _ _ => ?_
  refine (upholds_of_quiet (quiet_validateOverlaps segments) (Q := fun _ => True)
    fun _ _ => trivial).bind fun _ _ => ?_
  exact upholds_foldRun (fun _ _ _ h => upholds_mapMachSegment h) accounted_empty

end

/-! ## ELF -/

/-- The section of a segment to load. -/
def segmentOf (bias : UInt64) (header : ProgramHeader) : MappedSection where
  address := header.pVaddr + bias
  virtualSize := max header.pMemsz header.pFilesz
  permissions :=
    { read := header.pFlags &&& 4 ≠ 0
      write := header.pFlags &&& 2 ≠ 0
      execute := header.pFlags &&& 1 ≠ 0 }

/-- The lengths of the regions of an ELF file: what the file has of each segment. -/
def segmentLengths (elf : Elf) (bytes : ByteBuf) : List Nat :=
  (loads elf).map fun header => (fileSizeOf bytes header).toNat

/-- The regions are those of `headers`, as long as what the file has of them. -/
structure Placed (bytes : ByteBuf) (bias : UInt64) (headers : List ProgramHeader)
    (regions : Regions) : Prop where
  sections : regions.sections = headers.map (segmentOf bias)
  lengths : regions.mappedBytes.map List.length =
    headers.map fun header => (fileSizeOf bytes header).toNat
  initialized : regions.uninitialized = []

section

variable {bytes : ByteBuf} {bias : UInt64} {headers : List ProgramHeader} {regions : Regions}

theorem checkedAdd_eq {a b c : UInt64} (h : checkedAdd a b.toNat = some c) : c = a + b := by
  rw [← UInt64.toNat_inj, Mapped.checkedAdd_toNat h, UInt64.toNat_add]
  have hlt := c.toNat_lt
  rw [Mapped.checkedAdd_toNat h] at hlt
  exact (Nat.mod_eq_of_lt hlt).symm

theorem upholds_mapSegment {entry : ProgramHeader × Nat} (h : Placed bytes bias headers regions) :
    Upholds Small (mapSegment bytes bias regions entry)
      (Placed bytes bias (headers ++ [entry.1])) := by
  refine upholds_mappedRegion.bind fun data hdata => upholds_orFail.bind fun address haddress => ?_
  obtain rfl := checkedAdd_eq haddress
  apply upholds_pure
  have hpush : Placed bytes bias (headers ++ [entry.1])
      (regions.push (segmentOf bias entry.1)
        ⟨s!"PT_LOAD[{entry.2}]", entry.1.pOffset, fileSizeOf bytes entry.1⟩ data
        regions.total) := by
    constructor
    · simp [Regions.push, h.sections]
    · simp [Regions.push, h.lengths, hdata.1]
    · exact h.initialized
  unfold Regions.pushCode
  split
  · exact ⟨hpush.sections, hpush.lengths, hpush.initialized⟩
  · exact hpush

theorem upholds_mapSegments (entries : List (ProgramHeader × Nat))
    (h : Placed bytes bias headers regions) :
    Upholds Small (foldRun (mapSegment bytes bias) regions entries)
      (Placed bytes bias (headers ++ entries.map Prod.fst)) := by
  induction entries generalizing headers regions with
  | nil => exact upholds_pure (by simpa using h)
  | cons entry rest ih =>
    refine (upholds_mapSegment h).bind fun next hnext => ?_
    rw [List.map_cons, List.append_cons]
    exact ih hnext

theorem map_fst_filter_zipIdx {α : Type} (p : α → Bool) (xs : List α) (k : Nat) :
    ((xs.zipIdx k).filter fun entry => p entry.1).map Prod.fst = xs.filter p := by
  induction xs generalizing k with
  | nil => rfl
  | cons x xs ih =>
    rw [List.zipIdx_cons, List.filter_cons, List.filter_cons]
    cases p x with
    | false => simpa using ih (k + 1)
    | true => simpa using ih (k + 1)

theorem upholds_mapElf {elf : Elf} :
    Upholds Small (mapElf elf.programHeaders bias bytes) (Placed bytes bias (loads elf)) := by
  have hempty : Placed bytes bias [] Regions.empty := ⟨rfl, rfl, rfl⟩
  have h := upholds_mapSegments (loadSegments elf.programHeaders) hempty
  rwa [List.nil_append, loadSegments, map_fst_filter_zipIdx fun header : ProgramHeader =>
    decide (header.pType = ptLoad)] at h

/-! ## Relocations -/

theorem length_writeBytes (data : List UInt8) (offset : Nat) (source : List UInt8) :
    (writeBytes data offset source).length = data.length := by
  unfold writeBytes
  split
  · simp
    omega
  · rfl

theorem placed_write {m : Mapped} {address : UInt64} {source : List UInt8}
    (h : Placed bytes bias headers m.regions) :
    Placed bytes bias headers (m.write address source).regions := by
  unfold Mapped.write
  split
  · exact h
  · refine ⟨h.sections, ?_, h.initialized⟩
    rw [← h.lengths]
    apply List.ext_getElem?
    intro i
    rw [List.getElem?_map, List.getElem?_map, List.getElem?_modify]
    split
    · rw [Option.map_eq_map, Option.map_map]
      exact congrArg (Option.map · _) (funext fun data => length_writeBytes _ _ _)
    · rw [Option.map_eq_map, Option.map_map]
      rfl

theorem upholds_relocateRelative {m : Mapped} {relocation : ElfRelocation}
    (h : Placed bytes bias headers m.regions) :
    Upholds Small (relocateRelative bias m relocation)
      fun m' => Placed bytes bias headers m'.regions := by
  refine upholds_orFail.bind fun address _ => ?_
  dsimp only
  split
  · split
    · exact upholds_pure (placed_write h)
    · exact upholds_pure h
  · exact upholds_pure h

theorem upholds_relocate {vivisectCompat : Bool} {state : Mapped × Bindings}
    {relocation : ElfRelocation} (h : Placed bytes bias headers state.1.regions) :
    Upholds Small (relocate vivisectCompat bias state relocation)
      fun state' => Placed bytes bias headers state'.1.regions := by
  refine Upholds.ite_bind (upholds_relocateRelative h) (upholds_pure h) fun m hm => ?_
  split
  · exact upholds_pure hm
  · split
    · exact upholds_pure hm
    · refine upholds_orFail.bind fun address _ => ?_
      split
      · exact upholds_pure hm
      · exact upholds_pure hm

theorem quiet_checkPlt (entry : ElfSection) : Quiet (checkPlt bias entry) := by
  unfold checkPlt
  split
  · rfl
  · split
    · exact Mapped.quiet_orFail.bind fun _ => Mapped.quiet_orFail.bind fun _ => quiet_pure _
    · rfl

end

theorem upholds_fromElf {elf : Elf} {bytes : ByteBuf} {vivisectCompat : Bool} :
    Upholds Small (fromElf elf bytes vivisectCompat)
      fun state => Placed bytes (loadBias elf) (loads elf) state.1.regions := by
  have harch : Upholds Small (elfArchitecture elf.eMachine) fun _ => True := by
    unfold elfArchitecture
    split
    · exact upholds_pure trivial
    · split
      · exact upholds_pure trivial
      · split
        · exact upholds_pure trivial
        · exact upholds_throwFault
  refine harch.bind fun architecture _ => upholds_orFail.bind fun imageBase _ => ?_
  refine Upholds.ite_bind (Q := fun _ => True) (upholds_pure trivial)
    (upholds_orFail.weaken fun _ _ => trivial) fun _ _ => ?_
  refine upholds_mapElf.bind fun regions hregions => ?_
  have hplt : Upholds Small (foldRun (fun _ entry => checkPlt (loadBias elf) entry) ()
      elf.sectionHeaders) fun _ => True :=
    upholds_foldRun (fun _ entry _ _ => upholds_of_quiet (quiet_checkPlt entry) fun _ _ => trivial)
      trivial
  exact hplt.bind fun _ _ => upholds_foldRun (fun _ _ _ h => upholds_relocate h) hregions

/-! ## Imports -/

namespace Mapped

variable {m : Mapped} {names : ImportNames}

theorem small_bound (binding : DelayBinding) : Small (.bound binding) := fun _ h => nomatch h

theorem small_tables (iat int : UInt64) : Small (.tables iat int) := fun _ h => nomatch h

theorem upholds_bindThunks {descriptor : DelayDescriptor} {dll : String} (left index : Nat)
    (bindings : Bindings) :
    Upholds Small (m.bindThunks names descriptor dll left index bindings) fun _ => True := by
  induction left generalizing index bindings with
  | zero => exact upholds_throwFault
  | succ left ih =>
    rw [bindThunks]
    refine upholds_orFail.bind fun relative _ => upholds_orFail.bind fun thunkRva _ => ?_
    refine (upholds_of_quiet (quiet_readPointerAtRva thunkRva) (Q := fun _ => True)
      fun _ _ => trivial).bind fun value _ => ?_
    split
    · exact upholds_pure trivial
    · refine (upholds_of_quiet (quiet_symbolOf names descriptor dll _) (Q := fun _ => True)
        fun _ _ => trivial).bind fun symbol _ => ?_
      refine upholds_orFail.bind fun bindingRva _ => upholds_orFail.bind fun address _ => ?_
      refine (upholds_emit (R := fun _ => True) (small_bound _) trivial).bind fun _ _ => ?_
      exact ih (index + 1) _

theorem upholds_bindDescriptors {directory : DataDirectory} (left index : Nat)
    (bindings : Bindings) :
    Upholds Small (m.bindDescriptors names directory left index bindings) fun _ => True := by
  induction left generalizing index bindings with
  | zero => exact upholds_pure trivial
  | succ left ih =>
    rw [bindDescriptors]
    refine (upholds_of_quiet (quiet_readDescriptor directory index) (Q := fun _ => True)
      fun _ _ => trivial).bind fun found _ => ?_
    split
    · exact upholds_pure trivial
    · rename_i descriptor
      refine (upholds_of_quiet (quiet_readAsciiCstrAtRva descriptor.nameRva) (Q := fun _ => True)
        fun _ _ => trivial).bind fun dll _ => ?_
      refine (upholds_emit (R := fun _ => True) (small_tables _ _) trivial).bind fun _ _ => ?_
      exact (upholds_bindThunks maxDelayImports 0 bindings).bind fun bindings _ =>
        ih (index + 1) bindings

theorem upholds_loadPeDelayImports {header : OptionalHeader} {bindings : Bindings} :
    Upholds Small (m.loadPeDelayImports names header bindings) fun _ => True := by
  unfold loadPeDelayImports
  split
  · split
    · exact upholds_pure trivial
    · dsimp only
      split
      · exact upholds_throwFault
      · exact upholds_bindDescriptors _ 0 bindings
  · exact upholds_pure trivial

end Mapped

theorem upholds_fromPe {pe : Pe} {bytes : ByteBuf} {imports : Mapped → Except ImageError Bindings}
    {names : ImportNames} :
    Upholds Small (fromPe pe bytes imports names) fun state => Accounted state.1.regions := by
  have harch : Upholds Small (peArchitecture pe.machine) fun _ => True := by
    unfold peArchitecture
    split
    · exact upholds_pure trivial
    · split
      · exact upholds_pure trivial
      · split
        · exact upholds_pure trivial
        · exact upholds_throwFault
  refine harch.bind fun architecture _ => ?_
  refine Upholds.ite_bind (Q := fun _ => True) (upholds_pure trivial)
    (upholds_orFail.weaken fun _ _ => trivial) fun _ _ => ?_
  refine upholds_orFail.bind fun header _ => upholds_mapPe.bind fun regions hregions => ?_
  dsimp only
  split
  · exact upholds_throwFault
  · exact Mapped.upholds_loadPeDelayImports.bind fun _ _ => upholds_pure hregions

theorem quiet_foldRun {α β : Type} {f : α → β → Loading α} (h : ∀ a b, Quiet (f a b)) (a : α)
    (bs : List β) : Quiet (foldRun f a bs) := by
  induction bs generalizing a with
  | nil => rfl
  | cons b bs ih => exact (h a b).bind ih

theorem quiet_checkCommand (limit expected : UInt64) (command : UInt64 × UInt64) :
    Quiet (checkCommand limit expected command) := by
  unfold checkCommand
  dsimp only
  split
  · exact quiet_throwFault _
  · split
    · exact quiet_throwFault _
    · split
      · exact quiet_throwFault _
      · refine Mapped.quiet_orFail.bind fun stop => ?_
        split
        · exact quiet_throwFault _
        · exact quiet_pure _

theorem quiet_validateMachoLoadCommands (macho : Macho) (slice : ByteBuf) :
    Quiet (validateMachoLoadCommands macho slice) := by
  refine Mapped.quiet_orFail.bind fun limit => ?_
  refine (quiet_foldRun (quiet_checkCommand limit) 32 macho.commands).bind fun _ => ?_
  split
  · exact quiet_throwFault _
  · exact quiet_pure _

theorem upholds_fromMacho {macho : Macho} {slice : ByteBuf} {imports : Mapped → Bindings} :
    Upholds Small (fromMacho macho slice imports) fun state => Accounted state.1.regions := by
  have harch : Upholds Small (machoArchitecture macho.arch) fun _ => True := by
    unfold machoArchitecture
    split
    · exact upholds_pure trivial
    · split
      · exact upholds_pure trivial
      · exact upholds_throwFault
  unfold fromMacho
  split
  · exact upholds_throwFault
  · refine harch.bind fun architecture _ => ?_
    refine (upholds_of_quiet (quiet_validateMachoLoadCommands macho slice) (Q := fun _ => True)
      fun _ _ => trivial).bind fun _ _ => ?_
    exact upholds_mapMacho.bind fun regions hregions => upholds_pure hregions

/-! ## Every source -/

theorem backed_mapShellcode (bytes : ByteBuf) :
    (mapShellcode bytes).mappedBytes.map List.length =
      (mapShellcode bytes).sections.map (·.virtualSize.toNat) := by
  have hlt : bytes.bytes.length < 2 ^ 64 := by
    have := bytes.bounded
    unfold isizeMax at this
    omega
  show [bytes.bytes.length] = [(UInt64.ofNat bytes.bytes.length).toNat]
  rw [UInt64.toNat_ofNat_of_lt' hlt]

/-- No executable segment of an ELF file ends before its memory does, unless an earlier segment
    goes on there. -/
def FileBacked : Source → Prop
  | .file (.elf elf bytes _) =>
    ∀ a, ¬ CutShort ((loads elf).map (segmentOf (loadBias elf))) (segmentLengths elf bytes) a
  | _ => True

/-- The segments that an ELF file has are no more than the limit together. -/
def Fits : ImageFile → Prop
  | .elf elf bytes _ => (segmentLengths elf bytes).sum ≤ maxMappedImageBytes
  | _ => True

/-- The regions of an image are no more than the limit together, and none was more than the limit
    when it was allocated. -/
def MappedTotal (file : ImageFile) (m : Mapped) : Prop :=
  (m.regions.mappedBytes.map List.length).sum ≤ maxMappedImageBytes ∧
    ∀ n, .allocated n ∈ (loadFile file).log → n ≤ maxMappedImageBytes

theorem everyStepHasByte_of_backed {m : Mapped} {bindings : Bindings}
    {decodeAt : UInt64 → Except String (DecodedInstruction m.architecture)}
    (h : m.regions.mappedBytes.map List.length = m.regions.sections.map (·.virtualSize.toNat)) :
    EveryStepHasByte (m.image bindings decodeAt) := by
  have hlen := congrArg List.length h
  rw [List.length_map, List.length_map] at hlen
  exact (everyStepHasByte_image hlen).mpr fun a hcut => absurd hcut (not_cutShort_of_backed h a)

/-- Every address that recovery may walk has a byte, in images of PE and Mach-O files and of
    shellcode. In an ELF image the first address behind the bytes of a segment passes the test, with
    an empty slice. -/
theorem everyStepHasByte_iff (source : Source) (m : Mapped) (bindings : Bindings)
    (decodeAt : UInt64 → Except String (DecodedInstruction m.architecture))
    (h : (load source).outcome = .ok (m, bindings)) :
    EveryStepHasByte (m.image bindings decodeAt) ↔ FileBacked source := by
  match source with
  | .shellcode bytes architecture =>
    obtain ⟨rfl, -⟩ := Prod.mk.inj (Except.ok.inj h)
    exact ⟨fun _ => trivial, fun _ => everyStepHasByte_of_backed (backed_mapShellcode bytes)⟩
  | .file (.pe pe bytes imports names) =>
    have hacc : Accounted m.regions := upholds_fromPe.2 _ h
    exact ⟨fun _ => trivial, fun _ => everyStepHasByte_of_backed hacc.backed⟩
  | .file (.macho macho slice imports) =>
    have hacc : Accounted m.regions := upholds_fromMacho.2 _ h
    exact ⟨fun _ => trivial, fun _ => everyStepHasByte_of_backed hacc.backed⟩
  | .file (.elf elf bytes vivisectCompat) =>
    have hplaced : Placed bytes (loadBias elf) (loads elf) m.regions := upholds_fromElf.2 _ h
    have hlen : m.regions.mappedBytes.length = m.regions.sections.length := by
      have := congrArg List.length hplaced.lengths
      rw [List.length_map, List.length_map] at this
      rw [this, hplaced.sections, List.length_map]
    have hiff : EveryStepHasByte (m.image bindings decodeAt) ↔ _ := everyStepHasByte_image hlen
    have hnone : ∀ a, (m.image bindings decodeAt).isUninitialized a = false := by
      intro a
      show (m.regions.uninitialized.any _) = false
      rw [hplaced.initialized]
      rfl
    rw [hiff]
    show (∀ a, CutShort m.regions.sections (m.regions.mappedBytes.map List.length) a → _) ↔ _
    simp only [hnone, Bool.false_eq_true, imp_false, hplaced.sections, hplaced.lengths]
    rfl

/-- One executable segment behind the headers, of one byte in the file and of sixteen in memory. -/
def tailSegment : ProgramHeader := ⟨1, 5, 120, 0x401000, 1, 16⟩

def tailElf : Elf where
  eMachine := 62
  eType := 2
  entry := 0x401000
  programHeaders := [tailSegment]
  sectionHeaders := []
  relocations := []

/-- The file header and the program header. -/
def tailHeaders : List UInt8 :=
  [0x7f, 0x45, 0x4c, 0x46, 2, 1, 1, 0] ++ List.replicate 8 0 ++
    [2, 0, 62, 0, 1, 0, 0, 0] ++ [0, 0x10, 0x40, 0, 0, 0, 0, 0] ++ [64, 0, 0, 0, 0, 0, 0, 0] ++
    List.replicate 8 0 ++ [0, 0, 0, 0, 64, 0, 56, 0, 1, 0, 64, 0, 0, 0, 0, 0] ++
    [1, 0, 0, 0, 5, 0, 0, 0] ++ [120, 0, 0, 0, 0, 0, 0, 0] ++ [0, 0x10, 0x40, 0, 0, 0, 0, 0] ++
    [0, 0x10, 0x40, 0, 0, 0, 0, 0] ++ [1, 0, 0, 0, 0, 0, 0, 0] ++ [16, 0, 0, 0, 0, 0, 0, 0] ++
    [1, 0, 0, 0, 0, 0, 0, 0]

def tailBytes : ByteBuf := ⟨tailHeaders ++ [0xc3], by decide⟩

def tailRegions : Regions :=
  (Regions.empty.push (segmentOf 0 tailSegment) ⟨"PT_LOAD[0]", 120, 1⟩ [0xc3] 0).pushCode true 0x401000 0x401010

def tailMapped : Mapped := ⟨.x64, 0x401000, tailRegions⟩

set_option maxRecDepth 4000 in
theorem load_tail : (load (.file (.elf tailElf tailBytes false))).outcome =
    .ok (tailMapped, ⟨∅, ∅⟩) := by
  rfl

theorem everyStepHasByte_iff_tail :
    EveryStepHasByte (tailMapped.image ⟨∅, ∅⟩ fun _ => .error "not decoded") ↔
      FileBacked (.file (.elf tailElf tailBytes false)) :=
  everyStepHasByte_iff _ tailMapped ⟨∅, ∅⟩ _ load_tail

/-- The byte behind `ret` is executable and is not there. -/
theorem everyStepHasByte_fails : ∃ (source : Source) (m : Mapped) (bindings : Bindings),
    (load source).outcome = .ok (m, bindings) ∧
      ¬ EveryStepHasByte (m.image bindings fun _ => .error "not decoded") := by
  refine ⟨_, tailMapped, ⟨∅, ∅⟩, load_tail, fun hbyte => ?_⟩
  obtain ⟨byte, hone⟩ := hbyte 0x401001 (by decide +kernel)
  have hnone : (tailMapped.image ⟨∅, ∅⟩ fun _ => .error "not decoded").bytesAt 0x401001 1 =
      some [] := by decide +kernel
  rw [hnone] at hone
  cases hone

/-- The whole image is bounded, for PE and Mach-O files. The segments of an ELF file are not counted
    together. -/
theorem mappedTotal_iff (file : ImageFile) (m : Mapped) (bindings : Bindings)
    (h : (loadFile file).outcome = .ok (m, bindings)) : MappedTotal file m ↔ Fits file := by
  match file with
  | .pe pe bytes imports names =>
    have hacc : Accounted m.regions := upholds_fromPe.2 _ h
    have hsum : (m.regions.mappedBytes.map List.length).sum ≤ maxMappedImageBytes :=
      hacc.summed.trans_le hacc.small
    exact ⟨fun _ => trivial, fun _ => ⟨hsum, fun n hn => upholds_fromPe.1 _ hn n rfl⟩⟩
  | .macho macho slice imports =>
    have hacc : Accounted m.regions := upholds_fromMacho.2 _ h
    have hsum : (m.regions.mappedBytes.map List.length).sum ≤ maxMappedImageBytes :=
      hacc.summed.trans_le hacc.small
    exact ⟨fun _ => trivial, fun _ => ⟨hsum, fun n hn => upholds_fromMacho.1 _ hn n rfl⟩⟩
  | .elf elf bytes vivisectCompat =>
    have hplaced : Placed bytes (loadBias elf) (loads elf) m.regions := upholds_fromElf.2 _ h
    rw [MappedTotal, hplaced.lengths]
    exact and_iff_left fun n hn => upholds_fromElf.1 _ hn n rfl

theorem mappedTotal_iff_tail :
    MappedTotal (.elf tailElf tailBytes false) tailMapped ↔ Fits (.elf tailElf tailBytes false) :=
  mappedTotal_iff _ tailMapped ⟨∅, ∅⟩ load_tail

/-! ## A file that is mapped again and again -/

/-- A segment of 1 MiB behind the headers. -/
def wholeSegment : ProgramHeader := ⟨1, 4, 0x3878, 0x400000, 0x100000, 0x100000⟩

def repeated : Elf where
  eMachine := 62
  eType := 2
  entry := 0
  programHeaders := List.replicate 257 wholeSegment
  sectionHeaders := []
  relocations := []

/-- The program header of the segment in the file. -/
def wholeHeader : List UInt8 :=
  [1, 0, 0, 0, 4, 0, 0, 0] ++ [0x78, 0x38, 0, 0, 0, 0, 0, 0] ++ [0, 0, 0x40, 0, 0, 0, 0, 0] ++
    [0, 0, 0x40, 0, 0, 0, 0, 0] ++ [0, 0, 0x10, 0, 0, 0, 0, 0] ++ [0, 0, 0x10, 0, 0, 0, 0, 0] ++
    [1, 0, 0, 0, 0, 0, 0, 0]

def repeatedFileHeader : List UInt8 :=
  [0x7f, 0x45, 0x4c, 0x46, 2, 1, 1, 0] ++ List.replicate 8 0 ++
    [2, 0, 62, 0, 1, 0, 0, 0] ++ List.replicate 8 0 ++ [64, 0, 0, 0, 0, 0, 0, 0] ++
    List.replicate 8 0 ++ [0, 0, 0, 0, 64, 0, 56, 0, 1, 1, 64, 0, 0, 0, 0, 0]

/-- The file header and 257 times the program header. -/
def repeatedHeaders : List UInt8 :=
  repeatedFileHeader ++ (List.replicate 257 wholeHeader).flatten

theorem length_repeatedHeaders : repeatedHeaders.length = 0x3878 := by
  rw [repeatedHeaders, List.length_append, List.length_flatten, List.map_replicate,
    List.sum_replicate_nat]
  rfl

theorem length_repeatedFile : (repeatedHeaders ++ List.replicate 0x100000 0).length = 0x103878 := by
  rw [List.length_append, length_repeatedHeaders, List.length_replicate]

def repeatedBytes : ByteBuf :=
  ⟨repeatedHeaders ++ List.replicate 0x100000 0, by rw [length_repeatedFile]; decide⟩

theorem fileSizeOf_wholeSegment : fileSizeOf repeatedBytes wholeSegment = 0x100000 := by
  have hlen : repeatedBytes.bytes.length = 0x103878 := length_repeatedFile
  rw [fileSizeOf, hlen]
  decide

theorem returns_mappedRegion {bytes : ByteBuf} {fileOffset fileSize mappedSize : UInt64}
    {format : ImageFormat} (h : mappedSize.toNat ≤ maxMappedImageBytes) :
    (mappedRegion bytes fileOffset fileSize mappedSize format).Returns := by
  unfold mappedRegion
  dsimp only
  rw [if_neg (by omega)]
  split
  · split
    · exact ⟨_, rfl⟩
    · exact ⟨_, rfl⟩
  · exact ⟨_, rfl⟩

theorem returns_repeated (entries : List (ProgramHeader × Nat))
    (h : ∀ entry ∈ entries, entry.1 = wholeSegment) (regions : Regions) :
    (foldRun (mapSegment repeatedBytes 0) regions entries).Returns := by
  induction entries generalizing regions with
  | nil => exact returns_pure regions
  | cons entry rest ih =>
    obtain ⟨data, hdata⟩ : (mappedRegion repeatedBytes wholeSegment.pOffset
        (fileSizeOf repeatedBytes wholeSegment) (fileSizeOf repeatedBytes wholeSegment)
        .elf).Returns :=
      returns_mappedRegion (by rw [fileSizeOf_wholeSegment]; decide)
    have hone : (mapSegment repeatedBytes 0 regions entry).Returns := by
      rw [mapSegment, h entry List.mem_cons_self]
      exact ⟨_, outcome_bind.mpr ⟨data, hdata, outcome_bind.mpr ⟨0x400000, rfl, rfl⟩⟩⟩
    obtain ⟨next, hnext⟩ := hone
    obtain ⟨last, hlast⟩ := ih (fun e he => h e (List.mem_cons_of_mem _ he)) next
    exact ⟨last, outcome_bind.mpr ⟨next, hnext, hlast⟩⟩

theorem returns_loadFile_repeated : ∃ m : Mapped,
    (loadFile (.elf repeated repeatedBytes false)).outcome = .ok (m, ⟨∅, ∅⟩) := by
  obtain ⟨regions, hregions⟩ := returns_repeated (loadSegments repeated.programHeaders)
    (fun entry hentry => by
      have hmem := List.fst_mem_of_mem_zipIdx (List.mem_of_mem_filter hentry)
      exact List.eq_of_mem_replicate hmem) Regions.empty
  have hbase : checkedAdd (rawImageBase repeated) (loadBias repeated).toNat = some 0x400000 := by
    decide +kernel
  refine ⟨⟨.x64, 0x400000, regions⟩, ?_⟩
  refine outcome_bind.mpr ⟨.x64, rfl, outcome_bind.mpr ⟨0x400000, ?_, ?_⟩⟩
  · exact Mapped.outcome_orFail.mpr hbase
  · refine outcome_bind.mpr ⟨0x400000, rfl, outcome_bind.mpr ⟨regions, hregions, ?_⟩⟩
    exact outcome_bind.mpr ⟨(), rfl, rfl⟩

/-- A file of 1 MiB behind its headers becomes an image of 257 MiB. -/
theorem mappedTotal_fails : ∃ (file : ImageFile) (m : Mapped) (bindings : Bindings),
    (loadFile file).outcome = .ok (m, bindings) ∧ ¬ MappedTotal file m := by
  obtain ⟨m, hm⟩ := returns_loadFile_repeated
  refine ⟨_, m, _, hm, fun htotal => ?_⟩
  have hplaced : Placed repeatedBytes (loadBias repeated) (loads repeated) m.regions :=
    upholds_fromElf.2 _ hm
  have hloads : loads repeated = List.replicate 257 wholeSegment :=
    List.filter_replicate_of_pos (by decide)
  have hsum := htotal.1
  rw [hplaced.lengths, hloads, List.map_replicate, fileSizeOf_wholeSegment,
    List.sum_replicate_nat] at hsum
  exact absurd hsum (by decide)

end CapaX.Loader
