import CapaX.ElfOs.Bounds
import CapaX.ElfOs.GnuHash

/-
  The names of the imported symbols, from tables that stand as the ABI lays them out: the entries
  of the symbol table (`Symbol.encode`), the string table, and the hash table that says how many
  symbols there are. The string table is found through the section that covers its address.
-/

namespace CapaX.ElfOs

open Control Logged Codec Words

/-! ## Readers without a value -/

/-- The run goes through without a value. -/
def Fails {α : Type} (m : Reader α) : Prop := m.run.outcome = .ok none

section

variable {α β : Type} {m : Reader α} {a : α}

/-- What comes after a value decides. -/
theorem Gives.bind_outcome {f : α → Reader β} {o : Option β} (h : Gives m a)
    (hf : (f a).run.outcome = .ok o) : (m >>= f).run.outcome = .ok o := by
  rw [OptionT.run_bind]
  exact outcome_bind.mpr ⟨some a, h, hf⟩

theorem Fails.bind {f : α → Reader β} (h : Fails m) : Fails (m >>= f) := by
  rw [Fails, OptionT.run_bind]
  exact outcome_bind.mpr ⟨none, h, rfl⟩

theorem fails_none : Fails (ofOption none : Reader α) := rfl

end

/-! ## Symbols -/

/-- An entry of a symbol table. -/
structure Symbol where
  name : Nat
  value : Nat
  size : Nat
  info : Nat
  other : Nat
  shndx : Nat

namespace Symbol

/-- The fields in the order of the class. -/
def encode (bitness : Nat) (be : Bool) (s : Symbol) : List UInt8 :=
  if bitness = 32 then
    wordBytes be 4 s.name ++ (wordBytes be 4 s.value ++ (wordBytes be 4 s.size ++
      (wordBytes be 1 s.info ++ (wordBytes be 1 s.other ++ wordBytes be 2 s.shndx))))
  else
    wordBytes be 4 s.name ++ (wordBytes be 1 s.info ++ (wordBytes be 1 s.other ++
      (wordBytes be 2 s.shndx ++ (wordBytes be 8 s.value ++ wordBytes be 8 s.size))))

/-- The fields that are read fit their places. -/
structure Fits (bitness : Nat) (s : Symbol) : Prop where
  name : s.name < 2 ^ 32
  value : s.value < 256 ^ wordWidth bitness
  info : s.info < 2 ^ 8
  shndx : s.shndx < 2 ^ 16

/-- The size of an entry. -/
def entsize (bitness : Nat) : Nat := if bitness = 32 then 16 else 24

theorem length_encode (bitness : Nat) (be : Bool) (s : Symbol) :
    (s.encode bitness be).length = entsize bitness := by
  unfold encode entsize
  split <;> simp only [List.length_append, length_wordBytes]

/-- An entry is read with the fields it was written with, whatever the class. -/
theorem parseFullSym_encode {s : Symbol} {bitness : Nat} {be : Bool} {buf : List UInt8} {off : Nat}
    (hs : s.Fits bitness) (h : s.encode bitness be <+: buf.drop off)
    (hbuf : buf.length ≤ isizeMax) :
    Gives (parseFullSym buf off bitness be) ⟨s.name, s.value, s.shndx, s.info⟩ := by
  have hvalue := hs.value
  unfold encode at h
  unfold parseFullSym
  unfold wordWidth at hvalue
  by_cases hclass : bitness = 32
  · rw [if_pos hclass] at h hvalue
    rw [if_pos hclass]
    obtain ⟨hname, h⟩ := prefix_append h
    obtain ⟨hvalueAt, h⟩ := prefix_append h
    obtain ⟨-, h⟩ := prefix_append h
    obtain ⟨hinfo, h⟩ := prefix_append h
    obtain ⟨-, hshndx⟩ := prefix_append h
    simp only [length_wordBytes, Nat.add_assoc] at hvalueAt hinfo hshndx
    refine (gives_ofOption (getUint_standing hname (by decide) hs.name hbuf)).bind ?_
    refine (uintAt_standing hvalueAt (by decide) hvalue hbuf).bind ?_
    refine (uintAt_standing hinfo (by decide) hs.info hbuf).bind ?_
    exact (uintAt_standing hshndx (by decide) hs.shndx hbuf).bind (gives_pure _)
  · rw [if_neg hclass] at h hvalue
    rw [if_neg hclass]
    obtain ⟨hname, h⟩ := prefix_append h
    obtain ⟨hinfo, h⟩ := prefix_append h
    obtain ⟨-, h⟩ := prefix_append h
    obtain ⟨hshndx, h⟩ := prefix_append h
    obtain ⟨hvalueAt, -⟩ := prefix_append h
    simp only [length_wordBytes, Nat.add_assoc] at hvalueAt hinfo hshndx
    refine (gives_ofOption (getUint_standing hname (by decide) hs.name hbuf)).bind ?_
    refine (uintAt_standing hinfo (by decide) hs.info hbuf).bind ?_
    refine (uintAt_standing hshndx (by decide) hs.shndx hbuf).bind ?_
    exact (uintAt_standing hvalueAt (by decide) hvalue hbuf).bind (gives_pure _)

end Symbol

/-! ## Names -/

/-- The text of a string table at an offset: up to the first NUL. -/
def textAt (strtab : List UInt8) (offset : Nat) : Option (List UInt8) :=
  if offset ≤ strtab.length then utf8 ((strtab.drop offset).takeWhile (· != 0)) else none

/-- The name under which an undefined function, object or indirect function is imported. -/
def Symbol.importName (strtab : List UInt8) (s : Symbol) : Option (List UInt8) :=
  if s.name ≠ 0 ∧ s.info % 16 ∈ [2, 1, 10] ∧ s.value = 0 ∧ s.shndx = 0 then
    (textAt strtab s.name).filter fun name => !name.isEmpty
  else none

theorem cstr_text (bytes : List UInt8) (hbytes : bytes.length ≤ isizeMax) :
    (cstr bytes).run.outcome = .ok (utf8 (bytes.takeWhile (· != 0))) := by
  have hnul : (fun byte : UInt8 => !(byte != 0)) = fun byte => byte == 0 := by
    funext byte
    exact Bool.not_not _
  have htext : bytes.takeWhile (· != 0) =
      bytes.take ((bytes.findIdx? fun byte => byte == 0).getD bytes.length) := by
    rw [List.takeWhile_eq_take_findIdx_not, hnul, List.findIdx_eq_getD_findIdx?]
  have hstop : (bytes.findIdx? fun byte => byte == 0).getD bytes.length ≤ bytes.length := by
    rw [← List.findIdx_eq_getD_findIdx?]
    exact List.findIdx_le_length
  have hslice : (slice bytes 0 ((bytes.findIdx? fun byte => byte == 0).getD bytes.length)).outcome =
      .ok (bytes.takeWhile (· != 0)) := by
    rw [slice, get, if_pos ⟨Nat.zero_le _, hstop⟩, htext]
    rfl
  cases hname : utf8 (bytes.takeWhile (· != 0)) with
  | none => exact (gives_ofRun hslice).bind_outcome (Fails.bind (by rw [hname]; exact fails_none))
  | some name =>
    obtain rfl := utf8_eq_some hname
    have hlength := (List.takeWhile_prefix (l := bytes) (· != (0 : UInt8))).length_le
    refine (gives_ofRun hslice).bind ((gives_ofOption hname).bind ?_)
    exact (gives_ofRun (request_ok (by omega))).bind (gives_pure _)

theorem readCstr_text {strtab : List UInt8} (hstrtab : strtab.length ≤ isizeMax) (offset : Nat) :
    (readCstr strtab offset).run.outcome = .ok (textAt strtab offset) := by
  unfold readCstr textAt get
  by_cases hoff : offset ≤ strtab.length
  · have hrest : (strtab.drop offset).take (strtab.length - offset) = strtab.drop offset := by
      rw [← List.length_drop, List.take_length]
    have hshort := List.length_drop (l := strtab) (i := offset)
    rw [if_pos ⟨hoff, Nat.le_refl _⟩, if_pos hoff, hrest]
    have htext := cstr_text (strtab.drop offset) (by omega)
    exact (gives_ofOption rfl).bind_outcome htext
  · rw [if_neg fun h => hoff h.1, if_neg hoff]
    exact Fails.bind fails_none

section

variable {elf : Elf} {symtab strtab : List UInt8}

theorem importedName_encode {s : Symbol} {off : Nat} (hs : s.Fits elf.bitness)
    (h : s.encode elf.bitness elf.bigEndian <+: symtab.drop off)
    (hsymtab : symtab.length ≤ isizeMax) (hstrtab : strtab.length ≤ isizeMax) :
    (importedName elf symtab strtab off).run.outcome = .ok (s.importName strtab) := by
  have hparse := Symbol.parseFullSym_encode hs h hsymtab
  unfold importedName Symbol.importName
  refine hparse.bind_outcome ?_
  dsimp only
  by_cases himport : s.name ≠ 0 ∧ s.info % 16 ∈ [2, 1, 10] ∧ s.value = 0 ∧ s.shndx = 0
  · obtain ⟨hname, htype, hvalue, hshndx⟩ := himport
    have hkept : ¬(s.name = 0 ∨ s.info % 16 ∉ [2, 1, 10] ∨ s.value ≠ 0 ∨ s.shndx ≠ 0) := by
      tauto
    have hread := readCstr_text hstrtab s.name
    rw [if_neg hkept, if_pos ⟨hname, htype, hvalue, hshndx⟩]
    cases htext : textAt strtab s.name with
    | none => exact Fails.bind (hread.trans (by rw [htext]))
    | some name =>
      refine Gives.bind_outcome (hread.trans (by rw [htext])) ?_
      cases name <;> rfl
  · have hdropped : s.name = 0 ∨ s.info % 16 ∉ [2, 1, 10] ∨ s.value ≠ 0 ∨ s.shndx ≠ 0 := by
      tauto
    rw [if_pos hdropped, if_neg himport]
    exact fails_none

/-- The names of the symbols, by their index. -/
def importNames (strtab : List UInt8) (symbols : List Symbol) : List (Nat × List UInt8) :=
  symbols.zipIdx.filterMap fun entry => (entry.1.importName strtab).map fun name => (entry.2, name)

theorem symbolNames_encode {symbols : List Symbol} {i : Nat} (out : List (Nat × List UInt8))
    (hfits : ∀ s ∈ symbols, s.Fits elf.bitness)
    (h : symbols.flatMap (Symbol.encode elf.bitness elf.bigEndian) <+:
      symtab.drop (i * Symbol.entsize elf.bitness))
    (hsymtab : symtab.length ≤ isizeMax) (hstrtab : strtab.length ≤ isizeMax)
    (hend : (i + symbols.length) * Symbol.entsize elf.bitness < 2 ^ 64) :
    (symbolNames elf symtab strtab (Symbol.entsize elf.bitness) symbols.length i out).outcome =
      .ok (out ++ (symbols.zipIdx i).filterMap fun entry =>
        (entry.1.importName strtab).map fun name => (entry.2, name)) := by
  induction symbols generalizing i out with
  | nil =>
    rw [List.zipIdx_nil, List.filterMap_nil, List.append_nil]
    rfl
  | cons s symbols ih =>
    rw [List.flatMap_cons] at h
    obtain ⟨hs, hrest⟩ := prefix_append h
    rw [Symbol.length_encode, ← Nat.succ_mul] at hrest
    have hle : i * Symbol.entsize elf.bitness ≤
        (i + (symbols.length + 1)) * Symbol.entsize elf.bitness :=
      Nat.mul_le_mul_right _ (by omega)
    rw [List.length_cons] at hend
    have hoff : checkedMul i (Symbol.entsize elf.bitness) =
        some (i * Symbol.entsize elf.bitness) := checkedMul_ok (by omega)
    have hname := importedName_encode (hfits s List.mem_cons_self) hs hsymtab hstrtab
    rw [List.length_cons, symbolNames, hoff]
    refine outcome_bind.mpr ⟨_, hname, ?_⟩
    rw [ih _ (fun s hs => hfits s (List.mem_cons_of_mem _ hs)) hrest
      (by rwa [Nat.succ_add_eq_add_succ])]
    rw [List.zipIdx_cons, List.filterMap_cons, List.append_assoc]
    cases s.importName strtab <;> rfl

end

/-! ## Dynamic tables -/

/-- Where the dynamic entries say that the tables are. -/
structure TableAddresses where
  symtab : Nat
  gnuHash : Nat
  strtab : Nat

/-- The tables of a file: the symbols, the hash table over them and their names. -/
structure DynamicTables where
  hash : GnuHash
  symbols : List Symbol
  strtab : List UInt8

/-- The tables of a file are well-formed, and the dynamic entries point to them in one segment. -/
structure DynamicTables.Stand (t : DynamicTables) (bucketOf : Nat → Nat) (elf : Elf)
    (phdrs : List Phdr) (phdr : Phdr) (entries : List (Nat × Nat)) (a : TableAddresses) :
    Prop where
  programHeaders : elf.programHeaders.outcome = .ok phdrs
  dynamicEntries : elf.dynamicEntries.outcome = .ok entries
  symtabEntry : entryValue entries dtSymtab = some a.symtab
  gnuHashEntry : entryValue entries dtGnuHash = some a.gnuHash
  strtabEntry : entryValue entries 0x5 = some a.strtab
  strszEntry : entryValue entries 0xa = some t.strtab.length
  symtabMapped : Mapped phdrs phdr a.symtab
    (t.symbols.flatMap (Symbol.encode elf.bitness elf.bigEndian))
  gnuHashMapped : Mapped phdrs phdr a.gnuHash (t.hash.encode elf.bitness elf.bigEndian)
  strtabMapped : Mapped phdrs phdr a.strtab t.strtab
  conforms : t.hash.Conforms bucketOf
  symbols_fit : ∀ s ∈ t.symbols, s.Fits elf.bitness
  count : t.symbols.length = t.hash.numSymbols
  limit : t.hash.numSymbols < maxChainSteps

/-- A section covers the string table. -/
def StrtabCovered (elf : Elf) (address : Nat) (strtab : List UInt8) : Prop :=
  ∃ shdrs shdr, elf.sectionHeaders.outcome = .ok shdrs ∧
    coveringSection address shdrs = some shdr ∧ strtab <+: shdr.buf.drop (address - shdr.addr)

theorem coveringSection_bounds {address : Nat} {shdrs : List Shdr} {shdr : Shdr}
    (h : coveringSection address shdrs = some shdr) :
    address < shdr.addr + shdr.buf.length ∧ shdr.addr + shdr.buf.length < 2 ^ 64 := by
  induction shdrs with
  | nil => cases h
  | cons a shdrs ih =>
    unfold coveringSection at h
    split at h
    · split at h
      · cases h
      · next stop hstop =>
        unfold checkedAdd at hstop
        split at hstop
        · obtain rfl := Option.some.inj hstop
          split at h
          · obtain rfl := Option.some.inj h
            omega
          · exact ih h
        · cases hstop
    · exact ih h

namespace DynamicTables.Stand

variable {t : DynamicTables} {bucketOf : Nat → Nat} {elf : Elf} {phdrs : List Phdr} {phdr : Phdr}
  {entries : List (Nat × Nat)} {a : TableAddresses}
  (h : t.Stand bucketOf elf phdrs phdr entries a)
include h

theorem strtab_length : t.strtab.length ≤ isizeMax := by
  have hlength := length_standing h.strtabMapped.standing
  have hroom := h.strtabMapped.room
  omega

theorem strtab_found (hcovered : StrtabCovered elf a.strtab t.strtab) :
    Gives elf.strtab t.strtab := by
  obtain ⟨shdrs, shdr, hshdrs, hshdr, hstands⟩ := hcovered
  have hlow := (coveringSection_eq_some hshdr).2
  have hhigh := coveringSection_bounds hshdr
  have hlength := length_standing hstands
  refine (gives_ofRun h.dynamicEntries).bind ?_
  refine (gives_ofOption h.strtabEntry).bind ((gives_ofOption h.strszEntry).bind ?_)
  refine (gives_ofRun hshdrs).bind ((gives_ofOption hshdr).bind ?_)
  refine (gives_ofRun (subUsize_ok hlow)).bind ?_
  refine (gives_ofOption (checkedAdd_ok (by omega))).bind ?_
  refine (gives_ofOption (get_standing hstands (by omega))).bind ?_
  exact (gives_ofRun (request_ok h.strtab_length)).bind (gives_pure _)

theorem numSymbols_eq : Gives (gnuHashNumSymbols elf a.gnuHash) t.symbols.length := by
  rw [h.count]
  exact h.conforms.gnuHashNumSymbols h.programHeaders h.gnuHashMapped h.limit

theorem dynamicNames_eq (hcovered : StrtabCovered elf a.strtab t.strtab) :
    Gives (dynamicNames elf) (importNames t.strtab t.symbols) := by
  have hcount := h.numSymbols_eq
  have hlimit := h.limit
  have hpos := h.conforms.symoffset_pos
  have hsmall : maxChainSteps < 2 ^ 32 := by decide
  have hentsize : Symbol.entsize elf.bitness = if elf.bitness = 32 then 16 else 24 := rfl
  have hsize : 16 ≤ Symbol.entsize elf.bitness ∧ Symbol.entsize elf.bitness ≤ 24 := by
    rw [hentsize]
    split <;> decide
  have hlength : (t.symbols.flatMap (Symbol.encode elf.bitness elf.bigEndian)).length =
      Symbol.entsize elf.bitness * t.symbols.length :=
    length_flatMap_width (Symbol.length_encode elf.bitness elf.bigEndian)
  have hstands := length_standing h.symtabMapped.standing
  have hroom := h.symtabMapped.room
  have hnum : 1 ≤ t.symbols.length ∧ t.symbols.length < 2 ^ 32 := by
    rw [h.count]
    unfold GnuHash.numSymbols at hlimit ⊢
    omega
  have hproduct : t.symbols.length * Symbol.entsize elf.bitness ≤ t.symbols.length * 24 :=
    Nat.mul_le_mul_left _ hsize.2
  have hpositive : t.symbols.length ≤ t.symbols.length * Symbol.entsize elf.bitness :=
    Nat.le_mul_of_pos_right _ (by omega)
  have hwhole : t.symbols.flatMap (Symbol.encode elf.bitness elf.bigEndian) <+:
      (t.symbols.flatMap (Symbol.encode elf.bitness elf.bigEndian)).drop 0 := List.prefix_rfl
  rw [Nat.mul_comm] at hlength
  have hread := h.symtabMapped.readData h.programHeaders (by omega) hwhole
  rw [hlength, Nat.add_zero] at hread
  have hnames := symbolNames_encode (i := 0) [] h.symbols_fit
    (by rw [Nat.zero_mul]; exact hwhole) (by omega) h.strtab_length (by rw [Nat.zero_add]; omega)
  refine (gives_ofRun h.dynamicEntries).bind ((gives_ofOption h.symtabEntry).bind ?_)
  have hnumSymbols : Gives (numSymbols elf entries a.symtab (Symbol.entsize elf.bitness))
      t.symbols.length := by
    rw [numSymbols, h.gnuHashEntry]
    exact hcount
  have hproductFits : checkedMul t.symbols.length (Symbol.entsize elf.bitness) =
      some (t.symbols.length * Symbol.entsize elf.bitness) := checkedMul_ok (by omega)
  refine hnumSymbols.bind ((gives_ofOption hproductFits).bind (hread.bind ?_))
  refine (h.strtab_found hcovered).bind ((gives_ofRun hnames).bind ?_)
  exact (gives_ofRun (m := grown _) rfl).bind (gives_pure _)

end DynamicTables.Stand

/-- From tables of any class and byte order the number of symbols is recovered exactly, and where
    a section covers the string table, so are the names of the imported ones. -/
theorem dynamicImportSymbolNames_exact {buf : ByteBuf} {elf : Elf} {t : DynamicTables}
    {bucketOf : Nat → Nat} {phdrs : List Phdr} {phdr : Phdr} {entries : List (Nat × Nat)}
    {a : TableAddresses} (hparse : Elf.parse buf = some elf)
    (h : t.Stand bucketOf elf phdrs phdr entries a) :
    (gnuHashNumSymbols elf a.gnuHash).run.outcome = .ok (some t.symbols.length) ∧
      (StrtabCovered elf a.strtab t.strtab →
        (dynamicImportSymbolNames buf).outcome = .ok (importNames t.strtab t.symbols)) := by
  refine ⟨h.numSymbols_eq, fun hcovered => ?_⟩
  rw [dynamicImportSymbolNames, hparse]
  exact outcome_bind.mpr ⟨_, h.dynamicNames_eq hcovered, rfl⟩

/-! ## A sample file -/

theorem mapped_head {phdr : Phdr} {phdrs : List Phdr} {vaddr : Nat} {bytes : List UInt8}
    (hlow : phdr.vaddr ≤ vaddr) (hhigh : vaddr + bytes.length ≤ phdr.vaddr + phdr.memsz)
    (hstop : phdr.vaddr + phdr.memsz < 2 ^ 64)
    (hstanding : bytes <+: phdr.memory.drop (vaddr - phdr.vaddr))
    (hroom : phdr.memory.length ≤ isizeMax) : Mapped (phdr :: phdrs) phdr vaddr bytes where
  inside := by
    intro rva hrva hbound
    apply List.find?_cons_of_pos
    rw [Elf.holds, checkedAdd, if_pos hstop]
    simp only [Bool.and_eq_true, decide_eq_true_eq]
    omega
  standing := hstanding
  room := hroom

deriving instance DecidableEq for ByteBuf
deriving instance DecidableEq for Elf
deriving instance DecidableEq for Phdr
deriving instance DecidableEq for Shdr

/-- The null symbol, an undefined function, and a defined one that is hashed. -/
def sampleTables : DynamicTables where
  hash := ⟨2, [0], 0, [2], [1]⟩
  symbols := [⟨0, 0, 0, 0, 0, 0⟩, ⟨1, 0, 0, 0x12, 0, 0⟩, ⟨3, 0x1000, 0, 0x12, 0, 1⟩]
  strtab := [0, 0x61, 0, 0x62, 0]

def sampleAddresses : TableAddresses := ⟨0x1120, 0x1100, 0x1168⟩

def sampleEntries : List (Nat × Nat) :=
  [(dtSymtab, 0x1120), (dtGnuHash, 0x1100), (0x5, 0x1168), (0xa, 5)]

def sampleDynamic : List UInt8 :=
  sampleEntries.flatMap (fun entry => toLe 8 entry.1 ++ toLe 8 entry.2) ++ List.replicate 16 0

/-- A segment header: type, flags, offset, address, size in the file and in memory. -/
def sampleSegment (pType offset size : Nat) : List UInt8 :=
  toLe 4 pType ++ toLe 4 5 ++ toLe 8 offset ++ toLe 8 (0x1000 + offset) ++
    toLe 8 (0x1000 + offset) ++ toLe 8 size ++ toLe 8 size ++ toLe 8 8

def sampleHeader (shnum : Nat) : List UInt8 :=
  elfMagic ++ [2, 1, 1, 0] ++ List.replicate 8 0 ++ toLe 2 3 ++ toLe 2 62 ++ toLe 4 1 ++
    toLe 8 0 ++ toLe 8 64 ++ toLe 8 0x16d ++ toLe 4 0 ++ toLe 2 64 ++ toLe 2 56 ++ toLe 2 2 ++
    toLe 2 64 ++ toLe 2 shnum ++ toLe 2 0

/-- The file up to the section headers. -/
def sampleImage (shnum : Nat) : List UInt8 :=
  sampleHeader shnum ++ (sampleSegment ptLoad 0 0x16d ++ (sampleSegment ptDynamic 0xb0 0x50 ++
    (sampleDynamic ++ (sampleTables.hash.encode 64 false ++
      (sampleTables.symbols.flatMap (Symbol.encode 64 false) ++ sampleTables.strtab)))))

/-- The file with one section header, for the string table, that the file header may leave out. -/
def sampleBytes (shnum : Nat) : List UInt8 :=
  sampleImage shnum ++ (toLe 4 0 ++ toLe 4 3 ++ toLe 8 2 ++ toLe 8 0x1168 ++ toLe 8 0x168 ++
    toLe 8 5 ++ toLe 4 0 ++ toLe 4 0 ++ toLe 8 1 ++ toLe 8 0)

theorem length_sampleHeader (shnum : Nat) : (sampleHeader shnum).length = 64 := by
  simp only [sampleHeader, List.length_append, length_toLe, List.length_replicate]
  rfl

theorem length_sampleSegment (pType offset size : Nat) :
    (sampleSegment pType offset size).length = 56 := by
  simp only [sampleSegment, List.length_append, length_toLe]

theorem length_sampleTables : sampleDynamic.length = 80 ∧
    (sampleTables.hash.encode 64 false).length = 32 ∧
    (sampleTables.symbols.flatMap (Symbol.encode 64 false)).length = 72 ∧
    sampleTables.strtab.length = 5 := by
  decide +kernel

theorem length_sampleImage (shnum : Nat) : (sampleImage shnum).length = 365 := by
  obtain ⟨hdynamic, hhash, hsymbols, hstrtab⟩ := length_sampleTables
  unfold sampleImage
  rw [List.length_append, List.length_append, List.length_append, List.length_append,
    List.length_append, List.length_append, length_sampleHeader, length_sampleSegment,
    length_sampleSegment, hdynamic, hhash, hsymbols, hstrtab]

/-- The tables stand in the image one after the other. -/
theorem sampleImage_tables (shnum : Nat) :
    sampleTables.hash.encode 64 false <+: (sampleImage shnum).drop 0x100 ∧
      sampleTables.symbols.flatMap (Symbol.encode 64 false) <+: (sampleImage shnum).drop 0x120 ∧
      sampleTables.strtab <+: (sampleImage shnum).drop 0x168 := by
  obtain ⟨hdynamic, hhash, hsymbols, -⟩ := length_sampleTables
  have hwhole : sampleImage shnum <+: (sampleImage shnum).drop 0 := List.prefix_rfl
  obtain ⟨-, hrest⟩ := prefix_append hwhole
  obtain ⟨-, hrest⟩ := prefix_append hrest
  obtain ⟨-, hrest⟩ := prefix_append hrest
  obtain ⟨-, hrest⟩ := prefix_append hrest
  rw [length_sampleHeader, length_sampleSegment, length_sampleSegment, hdynamic] at hrest
  obtain ⟨hencode, hrest⟩ := prefix_append hrest
  obtain ⟨hentries, hrest⟩ := prefix_append hrest
  rw [hhash] at hentries hrest
  rw [hsymbols] at hrest
  exact ⟨hencode, hentries, hrest⟩

theorem length_sampleBytes (shnum : Nat) : (sampleBytes shnum).length = 429 := by
  simp only [sampleBytes, List.length_append, length_toLe, length_sampleImage]

def sampleFile (shnum : Nat) : ByteBuf where
  bytes := sampleBytes shnum
  bounded := by
    rw [length_sampleBytes]
    decide

def sampleElf (shnum : Nat) : Elf := ⟨sampleFile shnum, 64, false, 64, 56, 2, 0x16d, 64, shnum, 0⟩

def sampleLoad (shnum : Nat) : Phdr := ⟨ptLoad, 0x1000, 0x16d, 5, sampleImage shnum⟩

def samplePhdrs (shnum : Nat) : List Phdr :=
  [sampleLoad shnum, ⟨ptDynamic, 0x10b0, 0x50, 5, sampleDynamic⟩]

theorem sampleLoad_mapped {shnum k : Nat} {bytes : List UInt8}
    (hbytes : bytes <+: (sampleImage shnum).drop k) (hk : k ≤ 365) :
    Mapped (samplePhdrs shnum) (sampleLoad shnum) (0x1000 + k) bytes := by
  have hmemory : (sampleLoad shnum).memory = sampleImage shnum := by
    have hpad : (sampleLoad shnum).memsz - (sampleLoad shnum).buf.length = 0 := by
      show 0x16d - (sampleImage shnum).length = 0
      rw [length_sampleImage]
    rw [Phdr.memory, hpad, List.replicate_zero, List.append_nil, sampleLoad]
  have hlength := length_standing hbytes
  have himage := length_sampleImage shnum
  have hmax : 365 ≤ isizeMax := by decide
  have hvaddr : (sampleLoad shnum).vaddr = 0x1000 := rfl
  have hmemsz : (sampleLoad shnum).memsz = 365 := rfl
  apply mapped_head
  · omega
  · omega
  · omega
  · rwa [hmemory, hvaddr, Nat.add_sub_cancel_left]
  · rwa [hmemory, himage]

theorem sampleHash_conforms : sampleTables.hash.Conforms fun _ => 0 where
  symoffset_pos := by decide
  buckets_pos := by decide
  header_fits := by decide
  chain_fits := by decide
  bucketOf_lt := fun _ _ => by decide
  grouped := fun _ _ _ _ _ _ _ => rfl
  heads := by
    intro b head hhead
    obtain _ | b := b
    · obtain rfl := Option.some.inj hhead
      exact Or.inl ⟨0, by decide, rfl, fun j hj => absurd hj (Nat.not_lt_zero j), rfl⟩
    · cases hhead
  terminators := by
    intro i word hword
    obtain _ | i := i
    · obtain rfl := Option.some.inj hword
      decide
    · cases hword

theorem sampleSymbols_fit : ∀ s ∈ sampleTables.symbols, s.Fits 64 := by
  intro s hs
  obtain ⟨i, hi⟩ := List.mem_iff_getElem?.mp hs
  obtain _ | _ | _ | i := i
  iterate 3
    obtain rfl := Option.some.inj hi
    exact ⟨by decide, by decide, by decide, by decide⟩
  cases hi

theorem sample_stands {shnum : Nat} (h : shnum ≤ 1) :
    sampleTables.Stand (fun _ => 0) (sampleElf shnum) (samplePhdrs shnum) (sampleLoad shnum)
      sampleEntries sampleAddresses where
  programHeaders := (by decide +kernel : ∀ n ≤ 1,
    (sampleElf n).programHeaders.outcome = .ok (samplePhdrs n)) shnum h
  dynamicEntries := (by decide +kernel : ∀ n ≤ 1,
    (sampleElf n).dynamicEntries.outcome = .ok sampleEntries) shnum h
  symtabEntry := by decide
  gnuHashEntry := by decide
  strtabEntry := by decide
  strszEntry := by decide
  symtabMapped := sampleLoad_mapped (sampleImage_tables shnum).2.1 (by decide)
  gnuHashMapped := sampleLoad_mapped (sampleImage_tables shnum).1 (by decide)
  strtabMapped := sampleLoad_mapped (sampleImage_tables shnum).2.2 (by decide)
  conforms := sampleHash_conforms
  symbols_fit := sampleSymbols_fit
  count := by decide
  limit := by decide

theorem sample_parses {shnum : Nat} (h : shnum ≤ 1) :
    Elf.parse (sampleFile shnum) = some (sampleElf shnum) :=
  (by decide +kernel : ∀ n ≤ 1, Elf.parse (sampleFile n) = some (sampleElf n)) shnum h

/-- Without a section header for the string table no name is recovered, although the tables
    stand. -/
theorem strtab_uncovered :
    Elf.parse (sampleFile 0) = some (sampleElf 0) ∧
      sampleTables.Stand (fun _ => 0) (sampleElf 0) (samplePhdrs 0) (sampleLoad 0) sampleEntries
        sampleAddresses ∧
      importNames sampleTables.strtab sampleTables.symbols = [(1, ascii "a")] ∧
      (dynamicImportSymbolNames (sampleFile 0)).outcome = .ok [] :=
  ⟨sample_parses (Nat.zero_le 1), sample_stands (Nat.zero_le 1), by decide +kernel,
    by decide +kernel⟩

theorem sample_covered : StrtabCovered (sampleElf 1) sampleAddresses.strtab sampleTables.strtab :=
  ⟨[⟨0, 3, 0x1168, 0, sampleTables.strtab⟩], ⟨0, 3, 0x1168, 0, sampleTables.strtab⟩,
    by decide +kernel, by decide +kernel, by decide +kernel⟩

theorem dynamicImportSymbolNames_exact_sampleFile :
    (gnuHashNumSymbols (sampleElf 1) sampleAddresses.gnuHash).run.outcome =
        .ok (some sampleTables.symbols.length) ∧
      (dynamicImportSymbolNames (sampleFile 1)).outcome =
        .ok (importNames sampleTables.strtab sampleTables.symbols) := by
  obtain ⟨hcount, hnames⟩ :=
    dynamicImportSymbolNames_exact (sample_parses (Nat.le_refl 1)) (sample_stands (Nat.le_refl 1))
  exact ⟨hcount, hnames sample_covered⟩

end CapaX.ElfOs
