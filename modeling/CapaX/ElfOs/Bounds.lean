import CapaX.ElfOs.Detection

/-
  What the ELF readers ask for. `Fits`: a segment that is read declares at most `limit` bytes, and
  at most `isize::MAX`. `Bounded`: no vector asked for at once is longer than `limit` or
  `isize::MAX`, and what grows stays within a fixed multiple of `limit`. Every reader is sound for
  the two
  (`Sound`): while the segments it reads fit, it ends without a fault and its requests are bounded.
  One lemma for each reader says what its value is bounded by.
-/

namespace CapaX.ElfOs

open Control Logged

variable (limit : Nat)

/-- The segment a request images declares no more than the limit. -/
def Request.Fits (e : Request) : Prop :=
  ∀ phdr, e.segment = some phdr → phdr.memsz ≤ limit ∧ phdr.memsz ≤ isizeMax

/-- Vectors asked for at once stay within the limit. The bytes of the file are pushed at most once
    for each of 65535 headers, and inserted at most once for each of as many versions more. -/
def Request.Bounded (e : Request) : Prop :=
  match e.growth with
  | .reserved => e.length ≤ limit ∧ e.length ≤ isizeMax
  | .pushed => e.length ≤ 2 ^ 16 * (limit + 1)
  | .inserted => e.length ≤ 2 ^ 32 * (limit + 1)

abbrev RunSound {α : Type} (m : Run α) (Q : α → Prop) : Prop :=
  Sound (Request.Fits limit) (Request.Bounded limit) m Q

abbrev ReaderSound {α : Type} (m : Reader α) (Q : α → Prop) : Prop :=
  SoundPartial (Request.Fits limit) (Request.Bounded limit) m Q

/-- Bytes that may be asked for at once. -/
def Short (bytes : List UInt8) : Prop := bytes.length ≤ limit ∧ bytes.length ≤ isizeMax

variable {limit} {α : Type} {buf bytes : List UInt8} {be : Bool}

/-! ## Requests, arithmetic and slices -/

theorem request_sound {n : Nat} (h : n ≤ limit ∧ n ≤ isizeMax) :
    RunSound limit (request n) fun _ => True := by
  intro _
  refine ⟨⟨(), if_pos h.2, trivial⟩, fun e he => ?_⟩
  rw [List.mem_singleton.mp he]
  exact h

theorem grown_sound {n : Nat} (h : n ≤ 2 ^ 16 * (limit + 1)) :
    RunSound limit (grown n) fun _ => True := by
  intro _
  refine ⟨⟨(), rfl, trivial⟩, fun e he => ?_⟩
  rw [List.mem_singleton.mp he]
  exact h

theorem inserted_sound {n : Nat} (h : n ≤ 2 ^ 32 * (limit + 1)) :
    RunSound limit (inserted n) fun _ => True := by
  intro _
  refine ⟨⟨(), rfl, trivial⟩, fun e he => ?_⟩
  rw [List.mem_singleton.mp he]
  exact h

/-- The one request that the file does not bound: it is the assumption that bounds it. -/
theorem requestImage_sound {phdr : Phdr} (h : Short limit phdr.buf) :
    RunSound limit (requestImage phdr) fun _ => phdr.memsz ≤ limit ∧ phdr.memsz ≤ isizeMax := by
  intro hlog
  obtain ⟨hlimit, hmax⟩ := hlog _ List.mem_cons_self phdr rfl
  have hlength : max phdr.buf.length phdr.memsz ≤ limit := Nat.max_le.mpr ⟨h.1, hlimit⟩
  have hlength' : max phdr.buf.length phdr.memsz ≤ isizeMax := Nat.max_le.mpr ⟨h.2, hmax⟩
  refine ⟨⟨(), if_pos hlength', hlimit, hmax⟩, fun e he => ?_⟩
  rw [List.mem_singleton.mp he]
  exact ⟨hlength, hlength'⟩

theorem addUsize_sound {a b : Nat} (h : a + b < 2 ^ 64) :
    RunSound limit (addUsize a b) fun c => c = a + b := by
  rw [addUsize, if_pos h]
  exact sound_pure rfl

theorem subUsize_sound {a b : Nat} (h : b ≤ a) :
    RunSound limit (subUsize a b) fun c => c = a - b := by
  rw [subUsize, if_pos h]
  exact sound_pure rfl

theorem Short.of_get {start stop : Nat} (hbuf : Short limit buf)
    (h : get buf start stop = some bytes) : Short limit bytes := by
  obtain ⟨-, hstop, hlength⟩ := get_eq_some h
  obtain ⟨h1, h2⟩ := hbuf
  exact ⟨by omega, by omega⟩

theorem slice_sound {start stop : Nat} (h : start ≤ stop) (h' : stop ≤ buf.length) :
    RunSound limit (slice buf start stop) fun bytes => get buf start stop = some bytes := by
  have hget : get buf start stop = some ((buf.drop start).take (stop - start)) := if_pos ⟨h, h'⟩
  unfold slice
  rw [hget]
  exact sound_pure rfl

theorem index_sound {i : Nat} (h : i < buf.length) :
    RunSound limit (index buf i) fun _ => True := by
  unfold index
  rw [List.getElem?_eq_getElem h]
  exact sound_pure trivial

/-! ## Numbers -/

theorem fromBytes_lt (bytes : List UInt8) : fromBytes be bytes < 256 ^ bytes.length := by
  have hlittle : ∀ l : List UInt8,
      l.foldr (fun byte value => byte.toNat + 256 * value) 0 < 256 ^ l.length := by
    intro l
    induction l with
    | nil => simp
    | cons byte l ih =>
      have hbyte : byte.toNat < 256 := byte.toNat_lt
      rw [List.foldr_cons, List.length_cons, Nat.pow_succ]
      omega
  have hbig : ∀ (l : List UInt8) (v n : Nat), v < 256 ^ n →
      l.foldl (fun value byte => value * 256 + byte.toNat) v < 256 ^ (n + l.length) := by
    intro l
    induction l with
    | nil => exact fun v n hv => hv
    | cons byte l ih =>
      intro v n hv
      have hbyte : byte.toNat < 256 := byte.toNat_lt
      have hstep : v * 256 + byte.toNat < 256 ^ (n + 1) := by
        rw [Nat.pow_succ]
        omega
      have hrest := ih (v * 256 + byte.toNat) (n + 1) hstep
      rwa [List.foldl_cons, List.length_cons, Nat.add_comm l.length 1, ← Nat.add_assoc]
  unfold fromBytes
  split
  · have h := hbig bytes 0 0 (by decide)
    rwa [Nat.zero_add] at h
  · exact hlittle bytes

/-- A number that was read lies in the buffer and fits its width. -/
theorem getUint_eq_some {width off v : Nat} (h : getUint width buf off be = some v) :
    off + width ≤ buf.length ∧ v < 256 ^ width := by
  obtain ⟨stop, hstop, h⟩ := Option.bind_eq_some_iff.mp h
  obtain ⟨field, hfield, rfl⟩ := Option.map_eq_some_iff.mp h
  obtain ⟨-, hle, hlength⟩ := get_eq_some hfield
  have hsum := checkedAdd_eq_some hstop
  have hwidth : field.length = width := by omega
  exact ⟨by omega, hwidth ▸ fromBytes_lt field⟩

theorem uintAt_sound {width off field : Nat} (h : off + field < 2 ^ 64) :
    ReaderSound limit (uintAt width buf off field be) fun v =>
      off + field + width ≤ buf.length ∧ v < 256 ^ width := by
  refine SoundPartial.bind (.ofRun (addUsize_sound h)) fun place hplace => ?_
  subst hplace
  exact soundPartial_ofOption fun v hv => getUint_eq_some hv

/-! ## Text -/

theorem cstr_sound (h : Short limit bytes) : ReaderSound limit (cstr bytes) (Short limit) := by
  have hstop : (bytes.findIdx? fun byte => byte == 0).getD bytes.length ≤ bytes.length := by
    cases hfind : bytes.findIdx? fun byte => byte == 0 with
    | none => exact Nat.le_refl _
    | some i =>
      obtain ⟨hi, -⟩ := List.findIdx?_eq_some_iff_getElem.mp hfind
      exact Nat.le_of_lt hi
  unfold cstr
  refine SoundPartial.bind (.ofRun (slice_sound (Nat.zero_le _) hstop)) fun text htext => ?_
  refine SoundPartial.bind (soundPartial_ofOption fun _ => utf8_eq_some) fun name hname => ?_
  have hshort : Short limit name := hname ▸ h.of_get htext
  refine SoundPartial.bind (.ofRun (request_sound hshort)) fun _ _ => ?_
  exact soundPartial_pure hshort

theorem readCstr_sound {offset : Nat} (h : Short limit buf) :
    ReaderSound limit (readCstr buf offset) (Short limit) :=
  SoundPartial.bind (soundPartial_ofOption fun _ => h.of_get) fun _ hrest => cstr_sound hrest

/-! ## Headers -/

/-- A parsed file whose bytes fit the limit, with some room for literals. -/
structure Parsed (limit : Nat) (elf : Elf) : Prop where
  room : elf.buf.bytes.length + 32 ≤ limit
  phnum : elf.ePhnum < 2 ^ 16
  shnum : elf.eShnum < 2 ^ 16

variable {elf : Elf}

theorem Parsed.short (h : Parsed limit elf) : Short limit elf.buf.bytes :=
  ⟨by have := h.room; omega, elf.buf.bounded⟩

theorem contents_sound {file : ByteBuf} {offset size : Nat} (h : Short limit file.bytes) :
    ReaderSound limit (contents file offset size) (Short limit) := by
  refine SoundPartial.bind (soundPartial_ofOption fun _ => checkedAdd_eq_some) fun stop _ => ?_
  refine SoundPartial.bind (soundPartial_ofOption fun _ => h.of_get) fun bytes hbytes => ?_
  refine SoundPartial.bind (.ofRun (request_sound hbytes)) fun _ _ => ?_
  exact soundPartial_pure hbytes

/-- An offset at which a number was read leaves room for the fields after it. -/
theorem room_after {off width : Nat} (hoff : off + width ≤ elf.buf.bytes.length) (field : Nat)
    (hfield : field ≤ 2 ^ 32) : off + field < 2 ^ 64 := by
  have hmax := elf.buf.bounded
  unfold isizeMax at hmax
  omega

theorem parseProgramHeader_sound (h : Parsed limit elf) (i : Nat) :
    ReaderSound limit (elf.parseProgramHeader i) fun phdr => Short limit phdr.buf := by
  unfold Elf.parseProgramHeader
  refine SoundPartial.bind (soundPartial_ofOption fun _ => checkedAdd_eq_some) fun off _ => ?_
  dsimp only
  split
  · refine SoundPartial.bind (soundPartial_ofOption fun _ => getUint_eq_some) fun _ hoff => ?_
    have hplace := room_after hoff.1
    refine SoundPartial.bind (uintAt_sound (hplace _ (by decide))) fun _ _ => ?_
    refine SoundPartial.bind (uintAt_sound (hplace _ (by decide))) fun _ _ => ?_
    refine SoundPartial.bind (uintAt_sound (hplace _ (by decide))) fun _ _ => ?_
    refine SoundPartial.bind (uintAt_sound (hplace _ (by decide))) fun _ _ => ?_
    refine SoundPartial.bind (uintAt_sound (hplace _ (by decide))) fun _ _ => ?_
    refine SoundPartial.bind (contents_sound h.short) fun buf hbuf => ?_
    exact soundPartial_pure hbuf
  · refine SoundPartial.bind (soundPartial_ofOption fun _ => getUint_eq_some) fun _ hoff => ?_
    have hplace := room_after hoff.1
    refine SoundPartial.bind (uintAt_sound (hplace _ (by decide))) fun _ _ => ?_
    refine SoundPartial.bind (uintAt_sound (hplace _ (by decide))) fun _ _ => ?_
    refine SoundPartial.bind (uintAt_sound (hplace _ (by decide))) fun _ _ => ?_
    refine SoundPartial.bind (uintAt_sound (hplace _ (by decide))) fun _ _ => ?_
    refine SoundPartial.bind (uintAt_sound (hplace _ (by decide))) fun _ _ => ?_
    refine SoundPartial.bind (contents_sound h.short) fun buf hbuf => ?_
    exact soundPartial_pure hbuf

/-- A table of at most 65535 entries is short. -/
theorem grown_table_sound {n : Nat} (h : n < 2 ^ 16) : RunSound limit (grown n) fun _ => True :=
  grown_sound (by omega)

theorem programHeaders_sound (h : Parsed limit elf) :
    RunSound limit elf.programHeaders fun phdrs =>
      phdrs.length < 2 ^ 16 ∧ ∀ phdr ∈ phdrs, Short limit phdr.buf := by
  unfold Elf.programHeaders
  refine Sound.bind (sound_collect fun i _ => parseProgramHeader_sound h i) fun phdrs hphdrs => ?_
  obtain ⟨hcount, hshort⟩ := hphdrs
  rw [List.length_range] at hcount
  have hnum := h.phnum
  refine Sound.bind (grown_table_sound (by omega)) fun _ _ => ?_
  exact sound_pure ⟨by omega, hshort⟩

theorem sectionContents_sound (h : Parsed limit elf) (shType offset size : Nat) :
    ReaderSound limit (elf.sectionContents shType offset size) (Short limit) := by
  unfold Elf.sectionContents
  split
  · exact soundPartial_pure ⟨Nat.zero_le _, Nat.zero_le _⟩
  · exact contents_sound h.short

theorem parseSectionHeader_sound (h : Parsed limit elf) (i : Nat) :
    ReaderSound limit (elf.parseSectionHeader i) fun shdr => Short limit shdr.buf := by
  unfold Elf.parseSectionHeader
  refine SoundPartial.bind (soundPartial_ofOption fun _ => checkedAdd_eq_some) fun off _ => ?_
  refine SoundPartial.bind (soundPartial_ofOption fun _ => getUint_eq_some) fun _ hoff => ?_
  have hplace := room_after hoff.1
  refine SoundPartial.bind (uintAt_sound (hplace _ (by decide))) fun _ _ => ?_
  split
  · refine SoundPartial.bind (uintAt_sound (hplace _ (by decide))) fun _ _ => ?_
    refine SoundPartial.bind (uintAt_sound (hplace _ (by decide))) fun _ _ => ?_
    refine SoundPartial.bind (uintAt_sound (hplace _ (by decide))) fun _ _ => ?_
    refine SoundPartial.bind (uintAt_sound (hplace _ (by decide))) fun _ _ => ?_
    refine SoundPartial.bind (sectionContents_sound h _ _ _) fun buf hbuf => ?_
    exact soundPartial_pure hbuf
  · refine SoundPartial.bind (uintAt_sound (hplace _ (by decide))) fun _ _ => ?_
    refine SoundPartial.bind (uintAt_sound (hplace _ (by decide))) fun _ _ => ?_
    refine SoundPartial.bind (uintAt_sound (hplace _ (by decide))) fun _ _ => ?_
    refine SoundPartial.bind (uintAt_sound (hplace _ (by decide))) fun _ _ => ?_
    refine SoundPartial.bind (sectionContents_sound h _ _ _) fun buf hbuf => ?_
    exact soundPartial_pure hbuf

theorem sectionHeaders_sound (h : Parsed limit elf) :
    RunSound limit elf.sectionHeaders fun shdrs =>
      shdrs.length < 2 ^ 16 ∧ ∀ shdr ∈ shdrs, Short limit shdr.buf := by
  unfold Elf.sectionHeaders
  refine Sound.bind (sound_collect fun i _ => parseSectionHeader_sound h i) fun shdrs hshdrs => ?_
  obtain ⟨hcount, hshort⟩ := hshdrs
  rw [List.length_range] at hcount
  have hnum := h.shnum
  refine Sound.bind (grown_table_sound (by omega)) fun _ _ => ?_
  exact sound_pure ⟨by omega, hshort⟩

theorem getName_sound (h : Parsed limit elf) (shdr : Shdr) :
    ReaderSound limit (shdr.getName elf) (Short limit) :=
  SoundPartial.bind (parseSectionHeader_sound h elf.eShstrndx) fun _ hnames => readCstr_sound hnames

theorem linker_sound (h : Parsed limit elf) :
    ReaderSound limit elf.linker (Short limit) := by
  unfold Elf.linker
  refine SoundPartial.bind (.ofRun (programHeaders_sound h)) fun phdrs hphdrs => ?_
  have hfind (phdr : Phdr) (hphdr : phdrs.find? (fun phdr => phdr.pType == Elf.ptInterp) =
      some phdr) : Short limit phdr.buf := hphdrs.2 phdr (List.mem_of_find?_eq_some hphdr)
  exact SoundPartial.bind (soundPartial_ofOption hfind) fun phdr hphdr => readCstr_sound hphdr

/-! ## Version requirements -/

theorem insertVersion_sound {soName abi : List UInt8} {out : Versions}
    (hname : Short limit soName) (hout : out.length + 1 ≤ 2 ^ 32 * (limit + 1)) :
    RunSound limit (insertVersion soName abi out) fun out' => out'.length ≤ out.length + 1 := by
  have hlength : (if (soName, abi) ∈ out then out else out ++ [(soName, abi)]).length ≤
      out.length + 1 := by
    split <;> simp
  refine Sound.bind (request_sound hname) fun _ _ => ?_
  refine Sound.bind (inserted_sound (Nat.le_trans hlength hout)) fun _ _ => ?_
  exact sound_pure hlength

theorem insertFound_sound {soName : List UInt8} (hname : Short limit soName)
    (abi : Option (List UInt8)) {out : Versions}
    (hout : out.length + 1 ≤ 2 ^ 32 * (limit + 1)) :
    RunSound limit (insertFound soName abi out) fun out' => out'.length ≤ out.length + 1 := by
  cases abi with
  | none => exact sound_pure (Nat.le_succ _)
  | some abi => exact insertVersion_sound hname hout

/-- Offsets into a table stay far from the end of the address space. -/
theorem versionAux_sound {vnaOffset : Nat}
    (h : vnaOffset ≤ isizeMax + 2 ^ 32) :
    ReaderSound limit (versionAux be buf vnaOffset) fun aux =>
      vnaOffset + 16 ≤ buf.length ∧ aux.2 < 2 ^ 32 := by
  unfold isizeMax at h
  unfold versionAux
  refine SoundPartial.bind (uintAt_sound (by omega)) fun vnaName _ => ?_
  refine SoundPartial.bind (uintAt_sound (by omega)) fun vnaNext hnext => ?_
  exact soundPartial_pure ⟨by omega, hnext.2⟩

/-- A library adds at most as many versions as its entry counts. -/
theorem auxEntries_sound {linked soName : List UInt8} (hbuf : Short limit buf)
    (hlinked : Short limit linked) (hname : Short limit soName) (cnt vnaOffset : Nat)
    (out : Versions) (hoffset : vnaOffset ≤ isizeMax + 2 ^ 32)
    (hout : out.length + cnt ≤ 2 ^ 32 * (limit + 1)) :
    RunSound limit (auxEntries be buf linked soName cnt vnaOffset out) fun out' =>
      out'.length ≤ out.length + cnt := by
  induction cnt generalizing vnaOffset out with
  | zero => exact sound_pure (Nat.le_refl _)
  | succ cnt ih =>
    unfold auxEntries
    refine Sound.bind (versionAux_sound hoffset) fun aux haux => ?_
    cases aux with
    | none => exact sound_pure (by omega)
    | some aux =>
      obtain ⟨hplace, hnext⟩ := haux aux rfl
      dsimp only
      refine Sound.bind (readCstr_sound hlinked) fun abi _ => ?_
      refine Sound.bind (insertFound_sound hname abi (by omega)) fun out' hout' => ?_
      split
      · exact sound_pure (by omega)
      · split
        · exact sound_pure (by omega)
        · next nextOffset hsum =>
          have hlen := hbuf.2
          have hstep := checkedAdd_eq_some hsum
          exact (ih nextOffset out' (by omega) (by omega)).weaken fun _ _ => by omega

theorem versionNeed_sound {linked : List UInt8} {vnOffset : Nat} (hbuf : Short limit buf)
    (hlinked : Short limit linked) :
    ReaderSound limit (versionNeed be buf linked vnOffset) fun need =>
      vnOffset + 16 ≤ buf.length ∧ need.cnt < 2 ^ 16 ∧ Short limit need.soName ∧
        need.auxOffset ≤ isizeMax + 2 ^ 32 := by
  have hmax := hbuf.2
  unfold isizeMax at hmax
  unfold versionNeed
  refine SoundPartial.bind (soundPartial_ofOption fun _ => getUint_eq_some) fun _ hoff => ?_
  have hoff' := hoff.1
  refine SoundPartial.bind (uintAt_sound (by omega)) fun vnCnt hcnt => ?_
  refine SoundPartial.bind (uintAt_sound (by omega)) fun _ _ => ?_
  refine SoundPartial.bind (uintAt_sound (by omega)) fun vnAux haux => ?_
  refine SoundPartial.bind (uintAt_sound (by omega)) fun _ hnext => ?_
  split
  · exact soundPartial_ofOption fun _ hnone => nomatch hnone
  · refine SoundPartial.bind (readCstr_sound hlinked) fun soName hname => ?_
    refine SoundPartial.bind (soundPartial_ofOption fun _ => checkedAdd_eq_some)
      fun auxOffset hsum => ?_
    have haux' := haux.2
    have hbound : auxOffset ≤ isizeMax + 2 ^ 32 := by
      unfold isizeMax
      omega
    exact soundPartial_pure ⟨by omega, hcnt.2, hname, hbound⟩

/-- The walk through the entries of a section: the offset passes the end of the section before
    the steps run out. -/
theorem needEntries_sound {linked : List UInt8} (hbuf : Short limit buf)
    (hlinked : Short limit linked) (steps vnOffset : Nat) (out : Versions) (hsteps : 0 < steps)
    (hoffset : buf.length < vnOffset + steps)
    (hout : out.length + 2 ^ 16 * steps ≤ 2 ^ 32 * (limit + 1)) :
    RunSound limit (needEntries be buf linked steps vnOffset out) fun out' =>
      out'.length ≤ out.length + 2 ^ 16 * steps := by
  induction steps generalizing vnOffset out with
  | zero => exact absurd hsteps (Nat.lt_irrefl 0)
  | succ steps ih =>
    unfold needEntries
    refine Sound.bind (versionNeed_sound hbuf hlinked) fun need hneed => ?_
    cases need with
    | none => exact sound_pure (by omega)
    | some need =>
      obtain ⟨hplace, hcnt, hname, haux⟩ := hneed need rfl
      dsimp only
      refine Sound.bind (auxEntries_sound hbuf hlinked hname need.cnt need.auxOffset out haux
        (by omega)) fun out' hout' => ?_
      split
      · exact sound_pure (by omega)
      · next hnext =>
        split
        · exact sound_pure (by omega)
        · next nextOffset hsum =>
          have hstep := checkedAdd_eq_some hsum
          exact (ih nextOffset out' (by omega) (by omega) (by omega)).weaken fun _ _ => by omega

/-- What each section may add to the versions. -/
@[irreducible] def share (limit : Nat) : Nat := 2 ^ 16 * (limit + 1)

theorem share_eq : share limit = 2 ^ 16 * (limit + 1) := by rw [share]

/-- The shares of at most 65535 headers stay within the bound. -/
theorem shares_le {n : Nat} (hn : n < 2 ^ 16) : n * share limit ≤ 2 ^ 32 * (limit + 1) := by
  have hshare : share limit = 2 ^ 16 * (limit + 1) := share_eq
  have hle : n * share limit ≤ 2 ^ 16 * share limit := Nat.mul_le_mul_right _ (Nat.le_of_lt hn)
  omega

/-- Each of the sections adds at most a share of the bound. -/
theorem sectionVersions_sound (h : Parsed limit elf) {shdr : Shdr} (hshdr : Short limit shdr.buf)
    {n : Nat} {out : Versions} (hn : n + 1 < 2 ^ 16) (hout : out.length ≤ n * share limit) :
    RunSound limit (sectionVersions elf out shdr) fun out' =>
      out'.length ≤ (n + 1) * share limit := by
  have hnext : (n + 1) * share limit = n * share limit + share limit := Nat.add_one_mul n _
  have htotal : (n + 1) * share limit ≤ 2 ^ 32 * (limit + 1) := shares_le hn
  have hkept : out.length ≤ (n + 1) * share limit := by omega
  unfold sectionVersions
  split
  · exact sound_pure hkept
  · refine Sound.bind (parseSectionHeader_sound h _) fun linked hlinked => ?_
    cases linked with
    | none => exact sound_pure hkept
    | some linked =>
      have hlen := hshdr.1
      have hshare : 2 ^ 16 * (shdr.buf.length + 1) ≤ share limit := by
        rw [share_eq]
        omega
      have hroom : out.length + 2 ^ 16 * (shdr.buf.length + 1) ≤ (n + 1) * share limit := by
        rw [hnext]
        exact Nat.add_le_add hout hshare
      refine Sound.weaken (needEntries_sound hshdr (hlinked linked rfl) (shdr.buf.length + 1) 0 out
        (Nat.succ_pos _) (by omega) (Nat.le_trans hroom htotal)) fun out' hout' => ?_
      exact Nat.le_trans hout' hroom

theorem versionsNeeded_sound (h : Parsed limit elf) :
    RunSound limit elf.versionsNeeded fun _ => True := by
  unfold Elf.versionsNeeded
  refine Sound.bind (sectionHeaders_sound h) fun shdrs hshdrs => ?_
  have hcount := hshdrs.1
  refine Sound.weaken (sound_foldRun (I := fun n out => out.length ≤ n * share limit)
    (Nat.zero_add _) (Nat.zero_le _) fun shdr hmem n out hn hout => ?_) fun _ _ => trivial
  exact sectionVersions_sound h (hshdrs.2 shdr hmem) (by omega) hout

/-! ## Dynamic entries -/

theorem wordWidth_cases (bitness : Nat) : wordWidth bitness = 4 ∨ wordWidth bitness = 8 := by
  unfold wordWidth
  split <;> simp

theorem dynamicEntry_sound {bitness offset : Nat} (hbuf : Short limit buf)
    (hoffset : offset ≤ buf.length) :
    ReaderSound limit (dynamicEntry be bitness buf offset) fun _ =>
      offset + 2 * wordWidth bitness ≤ buf.length := by
  have hwidth := wordWidth_cases bitness
  have hmax := hbuf.2
  unfold isizeMax at hmax
  unfold dynamicEntry
  refine Sound.bind (uintAt_sound (by omega)) fun value hvalue => sound_pure fun entry hentry => ?_
  obtain ⟨tag, -, hmap⟩ := Option.bind_eq_some_iff.mp hentry
  obtain ⟨v, hv, -⟩ := Option.map_eq_some_iff.mp hmap
  have hplace := (hvalue v hv).1
  omega

/-- The entries of a segment: fewer than it has bytes. -/
theorem dynamicLoop_sound {bitness : Nat} (hbuf : Short limit buf) (steps offset : Nat)
    (out : List (Nat × Nat)) (hoffset : offset ≤ buf.length)
    (hsteps : buf.length < offset + steps) :
    RunSound limit (dynamicLoop be bitness buf steps offset out) fun out' =>
      out'.length ≤ out.length + steps := by
  induction steps generalizing offset out with
  | zero => exact absurd hsteps (by omega)
  | succ steps ih =>
    unfold dynamicLoop
    refine Sound.bind (dynamicEntry_sound hbuf hoffset) fun entry hentry => ?_
    cases entry with
    | none => exact sound_pure (by omega)
    | some entry =>
      have hplace := hentry entry rfl
      have hwidth := wordWidth_cases bitness
      have hmax := hbuf.2
      unfold isizeMax at hmax
      refine Sound.bind (addUsize_sound (by omega)) fun next hnext => ?_
      split
      · exact sound_pure (by omega)
      · refine Sound.weaken (ih next (out ++ [(entry.1, entry.2)]) (by omega) (by omega))
          fun out' hout' => ?_
        rw [List.length_append, List.length_singleton] at hout'
        omega

theorem dynamicEntries_sound (h : Parsed limit elf) :
    RunSound limit elf.dynamicEntries fun out => out.length ≤ 2 ^ 16 * (limit + 1) := by
  unfold Elf.dynamicEntries
  refine Sound.bind (programHeaders_sound h) fun phdrs hphdrs => ?_
  obtain ⟨hcount, hshort⟩ := hphdrs
  refine Sound.bind (sound_foldRun (I := fun n out => out.length ≤ n * (limit + 1))
    (Nat.zero_add _) (Nat.zero_le _) fun phdr hmem n out _ hout => ?_) fun out hout => ?_
  · have hnext : (n + 1) * (limit + 1) = n * (limit + 1) + (limit + 1) := Nat.add_one_mul n _
    unfold segmentEntries
    split
    · exact sound_pure (by omega)
    · have hlen := (hshort phdr hmem).1
      refine Sound.weaken (dynamicLoop_sound (hshort phdr hmem) (phdr.buf.length + 1) 0 out
        (Nat.zero_le _) (by omega)) fun out' hout' => ?_
      omega
  · have hbound := Nat.le_trans hout (Nat.mul_le_mul_right (limit + 1) (Nat.le_of_lt hcount))
    refine Sound.bind (grown_sound hbound) fun _ _ => ?_
    exact sound_pure hbound

/-! ## String and symbol tables -/

theorem coveringSection_eq_some {address : Nat} {shdrs : List Shdr} {shdr : Shdr}
    (h : coveringSection address shdrs = some shdr) : shdr ∈ shdrs ∧ shdr.addr ≤ address := by
  induction shdrs with
  | nil => cases h
  | cons a shdrs ih =>
    unfold coveringSection at h
    have hrest (h : coveringSection address shdrs = some shdr) :
        shdr ∈ a :: shdrs ∧ shdr.addr ≤ address :=
      ⟨List.mem_cons_of_mem a (ih h).1, (ih h).2⟩
    split at h
    · next hcovers =>
      split at h
      · cases h
      · split at h
        · obtain rfl := Option.some.inj h
          exact ⟨List.mem_cons_self, hcovers.2⟩
        · exact hrest h
    · exact hrest h

theorem strtab_sound (h : Parsed limit elf) : ReaderSound limit elf.strtab (Short limit) := by
  unfold Elf.strtab
  refine SoundPartial.bind (.ofRun (dynamicEntries_sound h)) fun entries _ => ?_
  refine SoundPartial.bind (soundPartial_ofOption fun _ _ => trivial) fun strtabAddr _ => ?_
  refine SoundPartial.bind (soundPartial_ofOption fun _ _ => trivial) fun strtabSize _ => ?_
  refine SoundPartial.bind (.ofRun (sectionHeaders_sound h)) fun shdrs hshdrs => ?_
  refine SoundPartial.bind (soundPartial_ofOption fun _ => coveringSection_eq_some)
    fun shdr hshdr => ?_
  have hshort := hshdrs.2 shdr hshdr.1
  refine SoundPartial.bind (.ofRun (subUsize_sound hshdr.2)) fun rel _ => ?_
  refine SoundPartial.bind (soundPartial_ofOption fun _ => checkedAdd_eq_some) fun stop _ => ?_
  refine SoundPartial.bind (soundPartial_ofOption fun _ => hshort.of_get) fun bytes hbytes => ?_
  refine SoundPartial.bind (.ofRun (request_sound hbytes)) fun _ _ => ?_
  exact soundPartial_pure hbytes

theorem needed_sound (h : Parsed limit elf) : RunSound limit elf.needed fun _ => True := by
  unfold Elf.needed
  refine Sound.bind (strtab_sound h) fun strtab hstrtab => ?_
  cases strtab with
  | none => exact sound_pure trivial
  | some strtab =>
    refine Sound.bind (dynamicEntries_sound h) fun entries hentries => ?_
    refine Sound.bind (sound_collect fun entry _ => readCstr_sound (hstrtab strtab rfl))
      fun names hnames => ?_
    have hfilter := List.length_filter_le (fun entry => entry.1 == Elf.dtNeeded) entries
    refine Sound.bind (grown_sound (by omega)) fun _ _ => ?_
    exact sound_pure trivial

theorem symtab_sound (h : Parsed limit elf) : ReaderSound limit elf.symtab fun tables =>
    Short limit tables.1.buf ∧ Short limit tables.2.buf := by
  unfold Elf.symtab
  refine SoundPartial.bind (.ofRun (sectionHeaders_sound h)) fun shdrs hshdrs => ?_
  have hfind (shdr : Shdr) (hshdr : shdrs.find? (fun shdr => shdr.shType == Elf.shtSymtab) =
      some shdr) : Short limit shdr.buf := hshdrs.2 shdr (List.mem_of_find?_eq_some hshdr)
  refine SoundPartial.bind (soundPartial_ofOption hfind) fun shdr hshdr => ?_
  refine SoundPartial.bind (parseSectionHeader_sound h _) fun strtab hstrtab => ?_
  exact soundPartial_pure ⟨hshdr, hstrtab⟩

/-! ## Reads at virtual addresses -/

theorem holds_le {rva : Nat} {phdr : Phdr} (h : Elf.holds rva phdr = true) : phdr.vaddr ≤ rva := by
  unfold Elf.holds at h
  split at h
  · cases h
  · rw [Bool.and_eq_true, decide_eq_true_eq] at h
    exact h.1

/-- A read gives as many bytes as it asks for, or nothing. -/
theorem readData_sound (h : Parsed limit elf) (rva size : Nat) :
    ReaderSound limit (elf.readData rva size) fun bytes =>
      bytes.length = size ∧ Short limit bytes := by
  unfold Elf.readData
  refine SoundPartial.bind (.ofRun (programHeaders_sound h)) fun phdrs hphdrs => ?_
  have hfind (phdr : Phdr) (hphdr : phdrs.find? (Elf.holds rva) = some phdr) :
      Short limit phdr.buf ∧ phdr.vaddr ≤ rva :=
    ⟨hphdrs.2 phdr (List.mem_of_find?_eq_some hphdr), holds_le (List.find?_some hphdr)⟩
  refine SoundPartial.bind (soundPartial_ofOption hfind) fun phdr hphdr => ?_
  obtain ⟨hshort, hvaddr⟩ := hphdr
  refine SoundPartial.bind (.ofRun (requestImage_sound hshort)) fun _ hmemsz => ?_
  have himage : Short limit (phdr.buf ++ List.replicate (phdr.memsz - phdr.buf.length) 0) := by
    obtain ⟨h1, h2⟩ := hshort
    obtain ⟨h3, h4⟩ := hmemsz
    constructor <;> rw [List.length_append, List.length_replicate] <;> omega
  refine SoundPartial.bind (.ofRun (subUsize_sound hvaddr)) fun offset _ => ?_
  refine SoundPartial.bind (soundPartial_ofOption fun _ => checkedAdd_eq_some) fun stop hstop => ?_
  have hget (bytes : List UInt8) (hbytes : get (phdr.buf ++
      List.replicate (phdr.memsz - phdr.buf.length) 0) offset stop = some bytes) :
      bytes.length = size ∧ Short limit bytes := by
    have hlength := (get_eq_some hbytes).2.2
    exact ⟨by omega, himage.of_get hbytes⟩
  refine SoundPartial.bind (soundPartial_ofOption hget) fun bytes hbytes => ?_
  refine SoundPartial.bind (.ofRun (request_sound hbytes.2)) fun _ _ => ?_
  exact soundPartial_pure hbytes

theorem readGoSlice_sound (h : Parsed limit elf) (rva : Nat) :
    ReaderSound limit (elf.readGoSlice rva) (Short limit) := by
  unfold Elf.readGoSlice
  refine SoundPartial.bind (readData_sound h _ _) fun struct _ => ?_
  refine SoundPartial.bind (soundPartial_ofOption fun _ => getUint_eq_some) fun addr _ => ?_
  refine SoundPartial.bind (soundPartial_ofOption fun _ => getUint_eq_some) fun length _ => ?_
  exact (readData_sound h _ _).weaken fun _ hbytes => hbytes.2

end CapaX.ElfOs
