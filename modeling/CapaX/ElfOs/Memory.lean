import CapaX.ElfOs.Bounds

/-
  No reader faults, and no vector outgrows a linear function of the file, exactly when the
  segments that are read declare a size within that function (`elfReaders_bounded_iff`). The
  guesses and the import names are sound as the readers of `Bounds` are; the one request that
  follows a declared size instead of the file is the zero-filled image of a segment in `readData`,
  and `overlongSegment` is a file that makes it fault.
-/

namespace CapaX.ElfOs

open Control Logged

variable {limit : Nat} {elf : Elf} {buf bytes : List UInt8} {be : Bool}

/-! ## Guesses -/

/-- A pure choice is sound. -/
theorem choice_sound {α : Type} (o : Option α) :
    ReaderSound limit (ofOption o) fun _ => True :=
  soundPartial_ofOption fun _ _ => trivial

theorem align_sound {v : Nat} (h : v < 2 ^ 32) :
    RunSound limit (align v 0x4) fun _ => True := by
  unfold align
  dsimp only
  split
  · exact sound_pure trivial
  · exact Sound.weaken (addUsize_sound (by omega)) fun _ _ => trivial

theorem parseNote_sound (hbuf : Short limit buf) :
    ReaderSound limit (parseNote buf be) fun _ => True := by
  unfold parseNote
  refine SoundPartial.bind (soundPartial_ofOption fun _ => getUint_eq_some) fun namesz hnamesz => ?_
  refine SoundPartial.bind (choice_sound _) fun _ _ => ?_
  refine SoundPartial.bind (choice_sound _) fun _ _ => ?_
  refine SoundPartial.bind (.ofRun (align_sound hnamesz.2)) fun _ _ => ?_
  refine SoundPartial.bind (choice_sound _) fun _ _ => ?_
  refine SoundPartial.bind (choice_sound _) fun _ _ => ?_
  refine SoundPartial.bind (soundPartial_ofOption fun _ => hbuf.of_get) fun nameBytes hname => ?_
  refine SoundPartial.bind (cstr_sound hname) fun _ _ => ?_
  exact soundPartial_pure trivial

theorem guessOsFromPhNotes_sound (h : Parsed limit elf) :
    ReaderSound limit (guessOsFromPhNotes elf) fun _ => True := by
  refine SoundPartial.bind (.ofRun (programHeaders_sound h)) fun phdrs hphdrs => ?_
  apply soundPartial_firstSome
  intro phdr hphdr
  split
  · exact choice_sound none
  · refine SoundPartial.bind (parseNote_sound (hphdrs.2 phdr hphdr)) fun note _ => ?_
    split
    · exact choice_sound none
    · exact choice_sound _

theorem guessOsFromShNotes_sound (h : Parsed limit elf) :
    ReaderSound limit (guessOsFromShNotes elf) fun _ => True := by
  refine SoundPartial.bind (.ofRun (sectionHeaders_sound h)) fun shdrs hshdrs => ?_
  apply soundPartial_firstSome
  intro shdr hshdr
  split
  · exact choice_sound none
  · refine SoundPartial.bind (parseNote_sound (hshdrs.2 shdr hshdr)) fun note _ => ?_
    exact choice_sound _

theorem guessOsFromIdentDirective_sound (h : Parsed limit elf) :
    ReaderSound limit (guessOsFromIdentDirective elf) fun _ => True := by
  refine SoundPartial.bind (.ofRun (sectionHeaders_sound h)) fun shdrs hshdrs => ?_
  apply soundPartial_firstSome
  intro shdr hshdr
  split
  · exact choice_sound none
  · refine SoundPartial.bind (getName_sound h shdr) fun name _ => ?_
    split
    · exact choice_sound none
    · exact choice_sound _

theorem guessOsFromLinker_sound (h : Parsed limit elf) :
    ReaderSound limit (guessOsFromLinker elf) fun _ => True :=
  SoundPartial.bind (linker_sound h) fun _ _ => choice_sound _

theorem guessOsFromAbiVersionsNeeded_sound (h : Parsed limit elf) :
    ReaderSound limit (guessOsFromAbiVersionsNeeded elf) fun _ => True := by
  refine SoundPartial.bind (.ofRun (versionsNeeded_sound h)) fun versions _ => ?_
  split
  · exact choice_sound none
  · split
    · exact soundPartial_pure trivial
    · refine SoundPartial.bind (.ofRun (linker_sound h)) fun linker _ => ?_
      cases linker with
      | none => exact soundPartial_pure trivial
      | some linker =>
        dsimp only
        split
        · exact soundPartial_pure trivial
        · split <;> exact soundPartial_pure trivial

theorem guessOsFromNeededDependencies_sound (h : Parsed limit elf) :
    ReaderSound limit (guessOsFromNeededDependencies elf) fun _ => True :=
  SoundPartial.bind (.ofRun (needed_sound h)) fun _ _ => choice_sound _

/-- The offset stays within the table, which has room for every symbol read. -/
theorem symtabLoop_sound {entsize : Nat} (hbuf : Short limit buf) (hentsize : 0 < entsize)
    (hsmall : entsize ≤ 24) (steps off : Nat) (out : List Nat) (hoff : off ≤ buf.length)
    (hsteps : buf.length < off + steps) (hout : out.length ≤ off) :
    RunSound limit (symtabLoop be entsize buf steps off out) fun out' =>
      out'.length ≤ buf.length := by
  have hmax := hbuf.2
  unfold isizeMax at hmax
  induction steps generalizing off out with
  | zero => exact absurd hsteps (by omega)
  | succ steps ih =>
    unfold symtabLoop
    refine Sound.bind (addUsize_sound (by omega)) fun stop hstop => ?_
    split
    · refine Sound.bind (addUsize_sound (by omega)) fun next hnext => ?_
      apply ih next _ (by omega) (by omega)
      split
      · rw [List.length_append, List.length_singleton]
        omega
      · omega
    · exact sound_pure (by omega)

theorem parseSymtab_sound (hbuf : Short limit buf) (bitness : Nat) :
    RunSound limit (parseSymtab buf bitness be) fun _ => True := by
  have hentsize : 0 < (if bitness = 32 then 16 else 24) ∧ (if bitness = 32 then 16 else 24) ≤ 24 := by
    split <;> omega
  have hlen := hbuf.1
  refine Sound.bind (symtabLoop_sound hbuf hentsize.1 hentsize.2 (buf.length + 1) 0 []
    (Nat.zero_le _) (by omega) (Nat.le_refl 0)) fun out hout => ?_
  refine Sound.bind (grown_sound (by omega)) fun _ _ => ?_
  exact sound_pure trivial

theorem guessOsFromSymtab_sound (h : Parsed limit elf) :
    ReaderSound limit (guessOsFromSymtab elf) fun _ => True := by
  refine SoundPartial.bind (symtab_sound h) fun tables htables => ?_
  refine SoundPartial.bind (.ofRun (parseSymtab_sound htables.1 _)) fun syms _ => ?_
  apply soundPartial_firstSome
  intro nameOffset _
  exact SoundPartial.bind (readCstr_sound htables.2) fun _ _ => choice_sound _

/-! ## Go -/

theorem isGoBinary_sound (h : Parsed limit elf) :
    ReaderSound limit (isGoBinary elf) fun _ => True := by
  refine SoundPartial.bind (.ofRun (sectionHeaders_sound h)) fun shdrs hshdrs => ?_
  apply soundPartial_firstSome
  intro shdr _
  exact SoundPartial.bind (getName_sound h shdr) fun _ _ => choice_sound _

theorem getGoBuildinfoData_sound (h : Parsed limit elf) :
    ReaderSound limit (getGoBuildinfoData elf) (Short limit) := by
  refine SoundPartial.bind (.ofRun (sectionHeaders_sound h)) fun shdrs hshdrs => ?_
  have hnamed (shdr : Shdr) (hshdr : shdr ∈ shdrs) : ReaderSound limit (do
      let name ← shdr.getName elf
      ofOption (if name = ascii ".go.buildinfo" then some shdr.buf else none)) (Short limit) := by
    refine SoundPartial.bind (getName_sound h shdr) fun name _ => ?_
    refine soundPartial_ofOption fun buf hbuf => ?_
    split at hbuf
    · exact Option.some.inj hbuf ▸ hshdrs.2 shdr hshdr
    · cases hbuf
  refine SoundPartial.bind (.ofRun (soundPartial_firstSome hnamed)) fun named hnamed => ?_
  cases named with
  | some buf =>
    have hbuf := hnamed buf rfl
    refine SoundPartial.bind (.ofRun (request_sound hbuf)) fun _ _ => ?_
    exact soundPartial_pure hbuf
  | none =>
    refine SoundPartial.bind (.ofRun (programHeaders_sound h)) fun phdrs hphdrs => ?_
    have hfind (phdr : Phdr) (hphdr : phdrs.find? writableData = some phdr) :
        Short limit phdr.buf := hphdrs.2 phdr (List.mem_of_find?_eq_some hphdr)
    refine SoundPartial.bind (soundPartial_ofOption hfind) fun phdr hphdr => ?_
    refine SoundPartial.bind (.ofRun (request_sound hphdr)) fun _ _ => ?_
    exact soundPartial_pure hphdr

/-- A short literal can always be asked for. -/
theorem literal_short {n : Nat} (h : Parsed limit elf) (hn : n ≤ 32) :
    n ≤ limit ∧ n ≤ isizeMax := by
  have hroom := h.room
  unfold isizeMax
  omega

theorem goosOf_sound (h : Parsed limit elf) (settings : List UInt8) :
    ReaderSound limit (goosOf settings) fun _ => True := by
  have hneedles : ∀ entry ∈ goosToOs, (ascii "GOOS=" ++ ascii entry.1).length ≤ 32 := by decide
  have hfirst := soundPartial_firstSome (Q := fun _ : Option Os => True) fun entry hentry =>
    SoundPartial.bind (.ofRun (request_sound (literal_short h (hneedles entry hentry))))
      fun _ _ => choice_sound (if contains settings (ascii "GOOS=" ++ ascii entry.1)
        then some entry.2 else none)
  exact SoundPartial.bind hfirst fun os _ => choice_sound os

theorem trimModinfo_sound {modinfo : List UInt8} (hmodinfo : Short limit modinfo) :
    RunSound limit (trimModinfo modinfo) fun _ => True := by
  unfold trimModinfo
  split
  · exact sound_pure trivial
  · next hlong =>
    refine Sound.bind (subUsize_sound (by omega)) fun i hi => ?_
    refine Sound.bind (index_sound (by omega)) fun byte _ => ?_
    dsimp only
    split
    · next hcond =>
      refine Sound.bind (slice_sound hcond.2.2 (Nat.sub_le _ _)) fun inner hinner => ?_
      refine Sound.bind (request_sound (hmodinfo.of_get hinner)) fun _ _ => ?_
      exact sound_pure trivial
    · exact sound_pure trivial

/-- A needle that was found lies in the haystack. -/
theorem findSubslice_eq_some {haystack needle : List UInt8} {i : Nat}
    (h : findSubslice haystack needle = some i) : i + needle.length ≤ haystack.length := by
  unfold findSubslice at h
  split at h
  · cases h
  · next hguard =>
    simp only [Bool.or_eq_true, decide_eq_true_eq, not_or, Nat.not_lt] at hguard
    have hi := List.mem_range.mp (List.mem_of_find?_eq_some h)
    omega

theorem guessOsFromGoBuildinfo_sound (h : Parsed limit elf) :
    ReaderSound limit (guessOsFromGoBuildinfo elf) fun _ => True := by
  refine SoundPartial.bind (getGoBuildinfoData_sound h) fun buf hbuf => ?_
  have hmax := hbuf.2
  have hmagic : buildinfoMagic.length = 14 := by decide
  unfold isizeMax at hmax
  refine SoundPartial.bind (soundPartial_ofOption fun _ => findSubslice_eq_some) fun i hi => ?_
  refine SoundPartial.bind (.ofRun (addUsize_sound (by omega))) fun start hstart => ?_
  refine SoundPartial.bind (.ofRun (addUsize_sound (by omega))) fun stop hstop => ?_
  refine SoundPartial.bind (soundPartial_ofOption fun _ => get_eq_some) fun hdr hhdr => ?_
  have htwo : hdr.length = 2 := by omega
  refine SoundPartial.bind (.ofRun (index_sound (by omega))) fun psize _ => ?_
  refine SoundPartial.bind (.ofRun (index_sound (by omega))) fun flags _ => ?_
  have hpsize := psize.toNat_lt
  split
  · exact choice_sound none
  · dsimp only
    split
    · exact goosOf_sound h buf
    · refine SoundPartial.bind (uintAt_sound (by omega)) fun version _ => ?_
      refine SoundPartial.bind (uintAt_sound (by omega)) fun modinfoAddress _ => ?_
      refine SoundPartial.bind (.ofRun (readGoSlice_sound h version)) fun _ _ => ?_
      refine SoundPartial.bind (readGoSlice_sound h modinfoAddress) fun modinfo hmodinfo => ?_
      split
      · exact choice_sound none
      · refine SoundPartial.bind (.ofRun (trimModinfo_sound hmodinfo)) fun settings _ => ?_
        exact goosOf_sound h settings

theorem sourceOs_sound {needle suffix : List UInt8} {names : List (String × Os)} {phdr : Phdr}
    (hphdr : Short limit phdr.buf) :
    ReaderSound limit (sourceOs needle suffix names phdr) fun _ => True := by
  have hmax := hphdr.2
  unfold isizeMax at hmax
  refine SoundPartial.bind (soundPartial_ofOption fun _ => findSubslice_eq_some) fun i hi => ?_
  refine SoundPartial.bind (.ofRun (addUsize_sound (by omega))) fun start hstart => ?_
  refine SoundPartial.bind (.ofRun (addUsize_sound (by omega))) fun bound hbound => ?_
  have hfrom : start ≤ min bound phdr.buf.length := Nat.le_min.mpr ⟨by omega, by omega⟩
  refine SoundPartial.bind (.ofRun (slice_sound hfrom (Nat.min_le_right _ _))) fun rest _ => ?_
  have hstop : (findSubslice rest suffix).getD rest.length ≤ rest.length := by
    cases hfind : findSubslice rest suffix with
    | none => exact Nat.le_refl _
    | some k => exact Nat.le_trans (Nat.le_add_right _ _) (findSubslice_eq_some hfind)
  refine SoundPartial.bind (.ofRun (slice_sound (Nat.zero_le _) hstop)) fun _ _ => ?_
  refine SoundPartial.bind (choice_sound _) fun filename _ => ?_
  exact choice_sound _

theorem guessOsFromGoSource_sound (h : Parsed limit elf) :
    ReaderSound limit (guessOsFromGoSource elf) fun _ => True := by
  refine SoundPartial.bind (isGoBinary_sound h) fun _ _ => ?_
  refine SoundPartial.bind (.ofRun (programHeaders_sound h)) fun phdrs hphdrs => ?_
  refine SoundPartial.bind (.ofRun (soundPartial_firstSome fun phdr hphdr =>
    sourceOs_sound (hphdrs.2 phdr hphdr))) fun byOs _ => ?_
  cases byOs with
  | some os => exact soundPartial_pure trivial
  | none =>
    refine SoundPartial.bind (.ofRun (programHeaders_sound h)) fun phdrs hphdrs => ?_
    exact soundPartial_firstSome fun phdr hphdr => sourceOs_sound (hphdrs.2 phdr hphdr)

theorem guessOsFromVdsoStrings_sound (h : Parsed limit elf) :
    ReaderSound limit (guessOsFromVdsoStrings elf) fun _ => True :=
  SoundPartial.bind (.ofRun (programHeaders_sound h)) fun _ _ => choice_sound _

theorem guesses_sound (h : Parsed limit elf) : ∀ guess ∈ guesses,
    ReaderSound limit (guess elf) fun _ => True := by
  unfold guesses
  simp only [List.mem_cons, List.not_mem_nil, or_false, forall_eq_or_imp, forall_eq]
  exact ⟨choice_sound _, guessOsFromPhNotes_sound h, guessOsFromShNotes_sound h,
    guessOsFromLinker_sound h, guessOsFromAbiVersionsNeeded_sound h,
    guessOsFromNeededDependencies_sound h, guessOsFromSymtab_sound h,
    guessOsFromGoBuildinfo_sound h, guessOsFromGoSource_sound h,
    guessOsFromIdentDirective_sound h, guessOsFromVdsoStrings_sound h⟩

theorem parse_eq_some {file : ByteBuf} (h : Elf.parse file = some elf) :
    elf.buf = file ∧ elf.ePhnum < 2 ^ 16 ∧ elf.eShnum < 2 ^ 16 := by
  unfold Elf.parse at h
  split at h
  · cases h
  · obtain ⟨eiClass, -, h⟩ := Option.bind_eq_some_iff.mp h
    obtain ⟨eiData, -, h⟩ := Option.bind_eq_some_iff.mp h
    obtain ⟨bitness, -, h⟩ := Option.bind_eq_some_iff.mp h
    obtain ⟨be, -, h⟩ := Option.bind_eq_some_iff.mp h
    split at h
    all_goals
      obtain ⟨ePhoff, -, h⟩ := Option.bind_eq_some_iff.mp h
      obtain ⟨eShoff, -, h⟩ := Option.bind_eq_some_iff.mp h
      obtain ⟨ePhentsize, -, h⟩ := Option.bind_eq_some_iff.mp h
      obtain ⟨ePhnum, hphnum, h⟩ := Option.bind_eq_some_iff.mp h
      obtain ⟨eShentsize, -, h⟩ := Option.bind_eq_some_iff.mp h
      obtain ⟨eShnum, hshnum, h⟩ := Option.bind_eq_some_iff.mp h
      obtain ⟨eShstrndx, -, h⟩ := Option.bind_eq_some_iff.mp h
      obtain rfl := Option.some.inj h
      exact ⟨rfl, (getUint_eq_some hphnum).2, (getUint_eq_some hshnum).2⟩

theorem parsed_of_parse {file : ByteBuf} (hroom : file.bytes.length + 32 ≤ limit)
    (h : Elf.parse file = some elf) : Parsed limit elf := by
  obtain ⟨hbuf, hphnum, hshnum⟩ := parse_eq_some h
  exact ⟨hbuf ▸ hroom, hphnum, hshnum⟩

theorem literal_sound {text : String} (htext : text.utf8ByteSize ≤ 32) (hlimit : 32 ≤ limit) :
    RunSound limit (literal text) fun _ => True := by
  have hmax : 32 ≤ isizeMax := by decide
  refine Sound.bind (request_sound ⟨by omega, by omega⟩) fun _ _ => ?_
  exact sound_pure trivial

theorem detectElfOs_sound (file : ByteBuf) (hroom : file.bytes.length + 32 ≤ limit) :
    RunSound limit (detectElfOs file) fun _ => True := by
  have hname : ∀ os : Os, os.name.utf8ByteSize ≤ 32 := by
    intro os
    cases os <;> decide
  unfold detectElfOs
  split
  · exact literal_sound (by decide) (by omega)
  · next elf hparse =>
    have h := parsed_of_parse hroom hparse
    refine Sound.bind (soundPartial_firstSome (guesses_sound h)) fun os _ => ?_
    apply literal_sound _ (by omega)
    cases os with
    | none => decide
    | some os => exact hname os

/-! ## Imports of the dynamic symbol table -/

theorem parseFullSym_sound {off : Nat} (bitness : Nat) (hoff : off ≤ isizeMax) :
    ReaderSound limit (parseFullSym buf off bitness be) fun _ => True := by
  unfold isizeMax at hoff
  unfold parseFullSym
  split
  all_goals
    refine SoundPartial.bind (choice_sound _) fun _ _ => ?_
    refine SoundPartial.bind (uintAt_sound (by omega)) fun _ _ => ?_
    refine SoundPartial.bind (uintAt_sound (by omega)) fun _ _ => ?_
    refine SoundPartial.bind (uintAt_sound (by omega)) fun _ _ => ?_
    exact soundPartial_pure trivial

/-- The index only grows along a chain, so the distance to the first symbol is a number. -/
theorem chainEnd_sound (h : Parsed limit elf) {chainPos symoffset : Nat} (steps maxIdx : Nat)
    (hidx : symoffset ≤ maxIdx) :
    ReaderSound limit (chainEnd elf chainPos symoffset steps maxIdx) fun _ => True := by
  induction steps generalizing maxIdx with
  | zero => exact choice_sound none
  | succ steps ih =>
    unfold chainEnd
    refine SoundPartial.bind (.ofRun (subUsize_sound hidx)) fun distance _ => ?_
    refine SoundPartial.bind (choice_sound _) fun wordVaddr _ => ?_
    refine SoundPartial.bind (readData_sound h _ _) fun word _ => ?_
    refine SoundPartial.bind (choice_sound _) fun curHash _ => ?_
    split
    · exact soundPartial_pure trivial
    · split
      · exact ih (maxIdx + 1) (Nat.le_succ_of_le hidx)
      · exact choice_sound none

theorem gnuHashNumSymbols_sound (h : Parsed limit elf) (vaddr : Nat) :
    ReaderSound limit (gnuHashNumSymbols elf vaddr) fun _ => True := by
  unfold gnuHashNumSymbols
  refine SoundPartial.bind (readData_sound h _ _) fun header _ => ?_
  refine SoundPartial.bind (choice_sound _) fun nbuckets _ => ?_
  refine SoundPartial.bind (choice_sound _) fun symoffset _ => ?_
  refine SoundPartial.bind (choice_sound _) fun bloomSize _ => ?_
  refine SoundPartial.bind (choice_sound _) fun bloom _ => ?_
  refine SoundPartial.bind (choice_sound _) fun bloomLen _ => ?_
  refine SoundPartial.bind (choice_sound _) fun bucketsVaddr _ => ?_
  refine SoundPartial.bind (choice_sound _) fun bucketsLen _ => ?_
  refine SoundPartial.bind (readData_sound h _ _) fun buckets _ => ?_
  refine SoundPartial.bind (choice_sound _) fun best _ => ?_
  refine SoundPartial.bind (choice_sound _) fun maxIdx _ => ?_
  split
  · exact soundPartial_pure trivial
  · next hidx =>
    refine SoundPartial.bind (choice_sound _) fun chainPos _ => ?_
    exact chainEnd_sound h maxChainSteps maxIdx (Nat.not_lt.mp hidx)

theorem elfHashNumSymbols_sound (h : Parsed limit elf) (vaddr : Nat) :
    ReaderSound limit (elfHashNumSymbols elf vaddr) fun _ => True :=
  SoundPartial.bind (readData_sound h _ _) fun _ _ => choice_sound _

theorem nearestAbove_lt {symtabVaddr n : Nat} {entries : List (Nat × Nat)}
    (h : nearestAbove symtabVaddr entries = some n) : symtabVaddr < n := by
  have hfold : ∀ (entries : List (Nat × Nat)) (nearest : Option Nat),
      (∀ m, nearest = some m → symtabVaddr < m) →
      ∀ m, entries.foldl (fun nearest entry =>
        if symtabVaddr < entry.2 ∧ nearest.all (fun n => decide (entry.2 < n)) then some entry.2
        else nearest) nearest = some m → symtabVaddr < m := by
    intro entries
    induction entries with
    | nil => exact fun nearest hnearest => hnearest
    | cons entry entries ih =>
      intro nearest hnearest
      rw [List.foldl_cons]
      apply ih
      intro m hm
      split at hm
      · next hcond => exact Option.some.inj hm ▸ hcond.1
      · exact hnearest m hm
  exact hfold entries none (fun _ hnone => nomatch hnone) n h

theorem segmentEnd_le {symtabVaddr : Nat} {phdrs : List Phdr} {found result : Option Nat}
    (hfound : ∀ m, found = some m → symtabVaddr ≤ m)
    (h : segmentEnd symtabVaddr phdrs found = some result) :
    ∀ m, result = some m → symtabVaddr ≤ m := by
  induction phdrs generalizing found with
  | nil => exact Option.some.inj h ▸ hfound
  | cons phdr phdrs ih =>
    unfold segmentEnd at h
    split at h
    · exact ih hfound h
    · obtain ⟨stop, -, h⟩ := Option.bind_eq_some_iff.mp h
      refine ih (fun m hm => ?_) h
      split at hm
      · next hcond => exact Option.some.inj hm ▸ hcond.2
      · exact hfound m hm

theorem nearestPtrNumSymbols_sound (h : Parsed limit elf) (entries : List (Nat × Nat))
    (symtabVaddr entsize : Nat) :
    ReaderSound limit (nearestPtrNumSymbols elf entries symtabVaddr entsize) fun _ => True := by
  unfold nearestPtrNumSymbols
  split
  · next n hnearest =>
    have hlt := nearestAbove_lt hnearest
    refine SoundPartial.bind (.ofRun (subUsize_sound (Nat.le_of_lt hlt))) fun _ _ => ?_
    exact soundPartial_pure trivial
  · refine SoundPartial.bind (.ofRun (programHeaders_sound h)) fun phdrs _ => ?_
    have hnone : ∀ m, (none : Option Nat) = some m → symtabVaddr ≤ m := fun _ h => nomatch h
    refine SoundPartial.bind (soundPartial_ofOption fun _ => segmentEnd_le hnone)
      fun found hfound => ?_
    refine SoundPartial.bind (soundPartial_ofOption hfound) fun stop hstop => ?_
    refine SoundPartial.bind (.ofRun (subUsize_sound hstop)) fun _ _ => ?_
    exact soundPartial_pure trivial

theorem numSymbols_sound (h : Parsed limit elf) (entries : List (Nat × Nat))
    (symtabVaddr entsize : Nat) :
    ReaderSound limit (numSymbols elf entries symtabVaddr entsize) fun _ => True := by
  unfold numSymbols
  split
  · exact gnuHashNumSymbols_sound h _
  · split
    · exact elfHashNumSymbols_sound h _
    · exact nearestPtrNumSymbols_sound h _ _ _

theorem importedName_sound {symtab strtab : List UInt8} {off : Nat} (hoff : off ≤ isizeMax)
    (hstrtab : Short limit strtab) :
    ReaderSound limit (importedName elf symtab strtab off) fun _ => True := by
  refine SoundPartial.bind (parseFullSym_sound _ hoff) fun sym _ => ?_
  dsimp only
  split
  · exact choice_sound none
  · refine SoundPartial.bind (readCstr_sound hstrtab) fun name _ => ?_
    split
    · exact choice_sound none
    · exact soundPartial_pure trivial

/-- Every symbol that is looked at lies in the table, so there are no more names than that. -/
theorem symbolNames_sound {symtab strtab : List UInt8} {entsize : Nat}
    (hstrtab : Short limit strtab) (count i : Nat) (out : List (Nat × List UInt8))
    (htable : (i + count) * entsize ≤ isizeMax) :
    RunSound limit (symbolNames elf symtab strtab entsize count i out) fun out' =>
      out'.length ≤ out.length + count := by
  induction count generalizing i out with
  | zero => exact sound_pure (Nat.le_refl _)
  | succ count ih =>
    unfold symbolNames
    split
    · exact sound_pure (by omega)
    · next off hmul =>
      have hoff : off ≤ isizeMax := by
        rw [checkedMul_eq_some hmul]
        exact Nat.le_trans (Nat.mul_le_mul_right entsize (Nat.le_add_right i _)) htable
      refine Sound.bind (importedName_sound hoff hstrtab) fun name _ => ?_
      have hone : name.toList.length ≤ 1 := by cases name <;> simp
      have hnext : (i + 1 + count) * entsize ≤ isizeMax := by
        rwa [Nat.add_right_comm, Nat.add_assoc]
      refine Sound.weaken (ih (i + 1) _ hnext) fun out' hout' => ?_
      rw [List.length_append, List.length_map] at hout'
      omega

theorem dynamicNames_sound (h : Parsed limit elf) :
    ReaderSound limit (dynamicNames elf) fun _ => True := by
  unfold dynamicNames
  refine SoundPartial.bind (.ofRun (dynamicEntries_sound h)) fun entries _ => ?_
  refine SoundPartial.bind (choice_sound _) fun symtabVaddr _ => ?_
  dsimp only
  have hentsize : 1 ≤ if elf.bitness = 32 then 16 else 24 := by split <;> omega
  generalize (if elf.bitness = 32 then 16 else 24) = entsize at hentsize ⊢
  refine SoundPartial.bind (numSymbols_sound h _ _ _) fun numSyms _ => ?_
  refine SoundPartial.bind (soundPartial_ofOption fun _ => checkedMul_eq_some)
    fun symtabLen hlen => ?_
  refine SoundPartial.bind (readData_sound h _ _) fun symtabBytes hsymtab => ?_
  refine SoundPartial.bind (strtab_sound h) fun strtabBytes hstrtab => ?_
  obtain ⟨hlength, hlimit, hmax⟩ := hsymtab
  have htable : (0 + numSyms) * entsize ≤ isizeMax := by
    rw [Nat.zero_add, ← hlen, ← hlength]
    exact hmax
  have hcount : numSyms ≤ limit := by
    have hle : numSyms * 1 ≤ numSyms * entsize := Nat.mul_le_mul_left _ hentsize
    omega
  refine SoundPartial.bind (.ofRun (symbolNames_sound hstrtab numSyms 0 [] htable))
    fun out hout => ?_
  rw [List.length_nil, Nat.zero_add] at hout
  refine SoundPartial.bind (.ofRun (grown_sound (by omega))) fun _ _ => ?_
  exact soundPartial_pure trivial

theorem dynamicImportSymbolNames_sound (file : ByteBuf) (hroom : file.bytes.length + 32 ≤ limit) :
    RunSound limit (dynamicImportSymbolNames file) fun _ => True := by
  unfold dynamicImportSymbolNames
  split
  · exact sound_pure trivial
  · next elf hparse =>
    refine Sound.bind (dynamicNames_sound (parsed_of_parse hroom hparse)) fun out _ => ?_
    exact sound_pure trivial

/-! ## The two readers -/

/-- The segments whose memory image a run builds: those `readData` selects. -/
def segmentsRead {α : Type} (m : Run α) : List Phdr := m.log.filterMap fun e => e.segment

/-- The run returns, and its vectors are bounded: those asked for at once by `limit` and
    `isize::MAX`, those that grow by a multiple of `limit`. -/
def Returns {α : Type} (limit : Nat) (m : Run α) : Prop :=
  (∃ a, m.outcome = .ok a) ∧ ∀ e ∈ m.log, e.Bounded limit

theorem returns_iff {α : Type} {m : Run α} (h : RunSound limit m fun _ => True) :
    Returns limit m ↔
      ∀ phdr ∈ segmentsRead m, phdr.memsz ≤ limit ∧ phdr.memsz ≤ isizeMax := by
  constructor
  · intro hreturns phdr hphdr
    obtain ⟨e, he, hsegment⟩ := List.mem_filterMap.mp hphdr
    -- the image is as long as the segment declares, and it is asked for at once
    obtain ⟨hreserved, hcovers⟩ := e.covers phdr hsegment
    have hbounded := hreturns.2 e he
    rw [Request.Bounded, hreserved] at hbounded
    obtain ⟨hlimit, hmax⟩ := hbounded
    exact ⟨Nat.le_trans hcovers hlimit, Nat.le_trans hcovers hmax⟩
  · intro hfits
    have hlog : ∀ e ∈ m.log, e.Fits limit := fun e he phdr hsegment =>
      hfits phdr (List.mem_filterMap.mpr ⟨e, he, hsegment⟩)
    obtain ⟨⟨a, hout, -⟩, hbounded⟩ := h hlog
    exact ⟨⟨a, hout⟩, hbounded⟩

/-- For every linear function of the length, from the length and 32 on: both readers return with
    bounded vectors just if the segments they read declare no more than that. -/
theorem elfReaders_bounded_iff (c d : Nat) (hc : 1 ≤ c) (hd : 32 ≤ d) (file : ByteBuf) :
    (Returns (c * file.bytes.length + d) (detectElfOs file) ∧
      Returns (c * file.bytes.length + d) (dynamicImportSymbolNames file)) ↔
    ∀ phdr ∈ segmentsRead (detectElfOs file) ++ segmentsRead (dynamicImportSymbolNames file),
      phdr.memsz ≤ c * file.bytes.length + d ∧ phdr.memsz ≤ isizeMax := by
  have hroom : file.bytes.length + 32 ≤ c * file.bytes.length + d :=
    Nat.add_le_add (Nat.le_mul_of_pos_left _ hc) hd
  rw [returns_iff (detectElfOs_sound file hroom),
    returns_iff (dynamicImportSymbolNames_sound file hroom), List.forall_mem_append]

/-! ## Sample files -/

/-- A file with one segment: dynamic entries for the symbol table and the hash table, both at
    address zero, and a declared size in memory. -/
def dynamicFile (memsz : List UInt8) : List UInt8 :=
  [0x7f, 0x45, 0x4c, 0x46, 2, 1, 1, 0] ++ List.replicate 8 0 ++
    [3, 0, 62, 0, 1, 0, 0, 0] ++ List.replicate 8 0 ++
    [64, 0, 0, 0, 0, 0, 0, 0] ++ List.replicate 8 0 ++
    [0, 0, 0, 0, 64, 0, 56, 0, 1, 0, 0, 0, 0, 0, 0, 0] ++
    [2, 0, 0, 0, 6, 0, 0, 0] ++ [120, 0, 0, 0, 0, 0, 0, 0] ++ List.replicate 16 0 ++
    [48, 0, 0, 0, 0, 0, 0, 0] ++ memsz ++ [8, 0, 0, 0, 0, 0, 0, 0] ++
    [6, 0, 0, 0, 0, 0, 0, 0] ++ List.replicate 8 0 ++
    [4, 0, 0, 0, 0, 0, 0, 0] ++ List.replicate 24 0

theorem dynamicFile_length (memsz : List UInt8) :
    (dynamicFile memsz).length = 160 + memsz.length := by
  simp [dynamicFile]
  omega

/-- The segment declares as many bytes as the file has for it. -/
def exactSegment : ByteBuf where
  bytes := dynamicFile [48, 0, 0, 0, 0, 0, 0, 0]
  bounded := by rw [dynamicFile_length]; decide

/-- The segment declares `2 ^ 63` bytes. -/
def overlongSegment : ByteBuf where
  bytes := dynamicFile [0, 0, 0, 0, 0, 0, 0, 0x80]
  bounded := by rw [dynamicFile_length]; decide

theorem elfReaders_bounded_iff_exactSegment :
    Returns 200 (detectElfOs exactSegment) ∧
      Returns 200 (dynamicImportSymbolNames exactSegment) ∧
      (segmentsRead (dynamicImportSymbolNames exactSegment)).length = 2 := by
  have hdetect : segmentsRead (detectElfOs exactSegment) = [] :=
    List.isEmpty_iff.mp (by decide +kernel)
  have hread : (segmentsRead (dynamicImportSymbolNames exactSegment)).map (·.memsz) = [48, 48] := by
    decide +kernel
  have hlength : 1 * exactSegment.bytes.length + 32 = 200 := by decide +kernel
  have hboth := elfReaders_bounded_iff 1 32 (Nat.le_refl 1) (Nat.le_refl 32) exactSegment
  rw [hlength, hdetect, List.nil_append] at hboth
  have hfits : ∀ phdr ∈ segmentsRead (dynamicImportSymbolNames exactSegment),
      phdr.memsz ≤ 200 ∧ phdr.memsz ≤ isizeMax := by
    intro phdr hphdr
    have hmemsz : phdr.memsz ∈ [48, 48] := hread ▸ List.mem_map_of_mem hphdr
    have h48 : phdr.memsz = 48 := by simpa using hmemsz
    rw [h48]
    decide
  obtain ⟨hos, hnames⟩ := hboth.mpr hfits
  exact ⟨hos, hnames, by decide +kernel⟩

/-- The zero-filled image of the segment does not fit the address space: the readers fault, and no
    linear function bounds what they ask for. -/
theorem elfReaders_unbounded :
    (dynamicImportSymbolNames overlongSegment).outcome = .error .capacityOverflow ∧
    ¬∃ c d, ∀ file : ByteBuf, Returns (c * file.bytes.length + d) (detectElfOs file) ∧
      Returns (c * file.bytes.length + d) (dynamicImportSymbolNames file) := by
  have hfault : (dynamicImportSymbolNames overlongSegment).outcome =
      .error .capacityOverflow := by decide +kernel
  refine ⟨hfault, ?_⟩
  rintro ⟨c, d, h⟩
  obtain ⟨a, hout⟩ := (h overlongSegment).2.1
  rw [hfault] at hout
  cases hout

end CapaX.ElfOs
