import CapaX.ElfOs.Detection

/-
  What the readers of the dynamic symbols make of well-formed tables. The tables are written down as
  the ABI lays them out (`GnuHash.encode`, `Symbol.encode`) and stand in the memory image of one
  segment (`Mapped`). The symbols of a bucket follow each other, so the largest bucket head is the
  first symbol of the last group (`bucketMax_eq_lastHead`), and the walk from there ends at the last
  symbol of all (`chainEnd_last`).
-/

namespace CapaX.ElfOs

open Control Logged Codec Words

/-! ## Readers with a value -/

/-- The run returns the value. -/
def Gives {α : Type} (m : Reader α) (a : α) : Prop := m.run.outcome = .ok (some a)

section

variable {α β : Type} {m : Reader α} {a : α} {b : β}

theorem Gives.bind {f : α → Reader β} (h : Gives m a) (hf : Gives (f a) b) :
    Gives (m >>= f) b := by
  rw [Gives, OptionT.run_bind]
  exact outcome_bind.mpr ⟨some a, h, hf⟩

theorem gives_pure (a : α) : Gives (pure a) a := rfl

theorem gives_ofOption {o : Option α} (h : o = some a) : Gives (ofOption o) a := by
  rw [h]
  rfl

theorem gives_ofRun {m : Run α} (h : m.outcome = .ok a) : Gives (ofRun m) a :=
  outcome_bind.mpr ⟨a, h, rfl⟩

theorem request_ok {length : Nat} (h : length ≤ isizeMax) : (request length).outcome = .ok () :=
  if_pos h

theorem addUsize_ok {x y : Nat} (h : x + y < 2 ^ 64) : (addUsize x y).outcome = .ok (x + y) := by
  rw [addUsize, if_pos h]
  rfl

theorem subUsize_ok {x y : Nat} (h : y ≤ x) : (subUsize x y).outcome = .ok (x - y) := by
  rw [subUsize, if_pos h]
  rfl

theorem checkedAdd_ok {x y : Nat} (h : x + y < 2 ^ 64) : checkedAdd x y = some (x + y) := if_pos h

theorem checkedMul_ok {x y : Nat} (h : x * y < 2 ^ 64) : checkedMul x y = some (x * y) := if_pos h

end

/-! ## Numbers in the byte order of a file -/

def wordBytes (be : Bool) (width n : Nat) : List UInt8 := if be then toBe width n else toLe width n

variable {be : Bool} {buf : List UInt8}

@[simp] theorem length_wordBytes (width n : Nat) : (wordBytes be width n).length = width := by
  unfold wordBytes
  split <;> simp

theorem length_words (words : List Nat) (width : Nat) :
    (words.flatMap (wordBytes be width)).length = width * words.length :=
  length_flatMap_width (length_wordBytes width)

theorem fromBytes_wordBytes {width n : Nat} (h : n < 256 ^ width) :
    fromBytes be (wordBytes be width n) = n := by
  cases be with
  | true => exact ofBe_toBe h
  | false => exact ofLe_toLe h

/-- The number that stands at an offset. -/
theorem getUint_standing {width n off : Nat} (h : wordBytes be width n <+: buf.drop off)
    (hwidth : 0 < width) (hn : n < 256 ^ width) (hbuf : buf.length ≤ isizeMax) :
    getUint width buf off be = some n := by
  have hlength := length_standing h
  rw [length_wordBytes] at hlength
  have hmax : isizeMax < 2 ^ 63 := by decide
  rw [getUint, checkedAdd_ok (by omega), Option.bind_some]
  have hget := get_standing h (by omega)
  rw [length_wordBytes] at hget
  rw [hget, Option.map_some, fromBytes_wordBytes hn]

/-- A word of a table. -/
theorem getU32_words {words : List Nat} (hfits : ∀ w ∈ words, w < 2 ^ 32)
    (hlength : 4 * words.length ≤ isizeMax) {i w : Nat} (hw : words[i]? = some w) :
    getU32 (words.flatMap (wordBytes be 4)) (4 * i) be = some w := by
  have hwhole : words.flatMap (wordBytes be 4) <+: (words.flatMap (wordBytes be 4)).drop 0 :=
    List.prefix_rfl
  have hstands := prefix_flatMap (length_wordBytes 4) hwhole hw
  rw [Nat.zero_add] at hstands
  exact getUint_standing hstands (by decide) (hfits w (List.mem_of_getElem? hw))
    (by rw [length_words]; exact hlength)

theorem uintAt_standing {width n off field : Nat}
    (h : wordBytes be width n <+: buf.drop (off + field)) (hwidth : 0 < width)
    (hn : n < 256 ^ width) (hbuf : buf.length ≤ isizeMax) :
    Gives (uintAt width buf off field be) n := by
  have hlength := length_standing h
  rw [length_wordBytes] at hlength
  have hmax : isizeMax < 2 ^ 63 := by decide
  refine (gives_ofRun (addUsize_ok (by omega))).bind ?_
  exact gives_ofOption (getUint_standing h hwidth hn hbuf)

/-! ## Mapped bytes -/

/-- The memory image of a segment: its contents, filled up with zeros. -/
def Phdr.memory (phdr : Phdr) : List UInt8 :=
  phdr.buf ++ List.replicate (phdr.memsz - phdr.buf.length) 0

theorem Phdr.length_memory (phdr : Phdr) :
    phdr.memory.length = max phdr.buf.length phdr.memsz := by
  rw [Phdr.memory, List.length_append, List.length_replicate]
  omega

/-- The bytes stand at a virtual address in one segment: each of their addresses is read from it,
    and its image fits the address space. -/
structure Mapped (phdrs : List Phdr) (phdr : Phdr) (vaddr : Nat) (bytes : List UInt8) : Prop where
  inside : ∀ rva, vaddr ≤ rva → rva < vaddr + bytes.length →
    phdrs.find? (Elf.holds rva) = some phdr
  standing : bytes <+: phdr.memory.drop (vaddr - phdr.vaddr)
  room : phdr.memory.length ≤ isizeMax

namespace Mapped

variable {phdrs : List Phdr} {phdr : Phdr} {vaddr : Nat} {bytes : List UInt8}
  (h : Mapped phdrs phdr vaddr bytes)
include h

/-- An address of the bytes is one of the segment. -/
theorem bounds {rva : Nat} (hlow : vaddr ≤ rva) (hhigh : rva < vaddr + bytes.length) :
    phdr.vaddr ≤ rva ∧ rva < 2 ^ 64 := by
  have hholds := List.find?_some (h.inside rva hlow hhigh)
  unfold Elf.holds checkedAdd at hholds
  split at hholds
  · cases hholds
  · next stop hstop =>
    split at hstop
    · obtain rfl := Option.some.inj hstop
      rw [Bool.and_eq_true, decide_eq_true_eq, decide_eq_true_eq] at hholds
      omega
    · cases hstop

/-- A part of the bytes is read as it stands. -/
theorem readData {elf : Elf} (hphdrs : elf.programHeaders.outcome = .ok phdrs) {k : Nat}
    {part : List UInt8} (hpos : 0 < part.length) (hpart : part <+: bytes.drop k) :
    Gives (elf.readData (vaddr + k) part.length) part := by
  have hsize := length_standing hpart
  have hbase := (h.bounds (Nat.le_refl vaddr) (by omega)).1
  have hlength := length_standing h.standing
  have hroom := h.room
  have hmax : isizeMax < 2 ^ 63 := by decide
  have hoff : vaddr + k - phdr.vaddr = vaddr - phdr.vaddr + k := by omega
  have hget := get_standing (prefix_drop_trans h.standing (by omega) hpart) (by omega)
  refine (gives_ofRun hphdrs).bind ?_
  refine (gives_ofOption (h.inside _ (Nat.le_add_right _ _) (by omega))).bind ?_
  refine (gives_ofRun (if_pos (le_of_eq_of_le phdr.length_memory.symm hroom))).bind ?_
  refine (gives_ofRun (subUsize_ok (by omega))).bind ?_
  rw [hoff]
  refine (gives_ofOption (checkedAdd_ok (by omega))).bind ?_
  refine (gives_ofOption hget).bind ?_
  exact (gives_ofRun (request_ok (by omega))).bind (gives_pure _)

/-- A number that stands in the bytes is read through a copy of its own. -/
theorem readWord {elf : Elf} (hphdrs : elf.programHeaders.outcome = .ok phdrs) {k n : Nat}
    (hpart : wordBytes elf.bigEndian 4 n <+: bytes.drop k) :
    Gives (elf.readData (vaddr + k) 4) (wordBytes elf.bigEndian 4 n) := by
  have hread := h.readData hphdrs (by rw [length_wordBytes]; decide) hpart
  rwa [length_wordBytes] at hread

end Mapped

/-! ## The hash table -/

/-- The words of a hash table; the chain has one word for each hashed symbol, in their order. -/
structure GnuHash where
  symoffset : Nat
  bloom : List Nat
  bloomShift : Nat
  buckets : List Nat
  chain : List Nat

namespace GnuHash

/-- The number of symbols: those that are not hashed, then those that are. -/
def numSymbols (t : GnuHash) : Nat := t.symoffset + t.chain.length

def header (t : GnuHash) : List Nat :=
  [t.buckets.length, t.symoffset, t.bloom.length, t.bloomShift]

/-- The header, the bloom words, the buckets and the chain. -/
def encode (t : GnuHash) (bitness : Nat) (be : Bool) : List UInt8 :=
  t.header.flatMap (wordBytes be 4) ++
    (t.bloom.flatMap (wordBytes be (wordWidth bitness)) ++
      (t.buckets.flatMap (wordBytes be 4) ++ t.chain.flatMap (wordBytes be 4)))

/-- `i` is the first symbol of its bucket. -/
def First (bucketOf : Nat → Nat) (i : Nat) : Prop := ∀ j < i, bucketOf j ≠ bucketOf i

/-- What the ABI prescribes of the words. `bucketOf` is the bucket of each hashed symbol, counted
    from the first of them. -/
structure Conforms (t : GnuHash) (bucketOf : Nat → Nat) : Prop where
  symoffset_pos : 1 ≤ t.symoffset
  buckets_pos : 0 < t.buckets.length
  header_fits : ∀ w ∈ t.header, w < 2 ^ 32
  chain_fits : ∀ w ∈ t.chain, w < 2 ^ 32
  bucketOf_lt : ∀ i < t.chain.length, bucketOf i < t.buckets.length
  grouped : ∀ i j k, i ≤ j → j ≤ k → k < t.chain.length → bucketOf i = bucketOf k →
    bucketOf j = bucketOf i
  heads : ∀ b head, t.buckets[b]? = some head →
    (∃ i < t.chain.length, bucketOf i = b ∧ First bucketOf i ∧ head = t.symoffset + i) ∨
      ((∀ i < t.chain.length, bucketOf i ≠ b) ∧ head = 0)
  terminators : ∀ i word, t.chain[i]? = some word →
    (word % 2 = 1 ↔ i + 1 = t.chain.length ∨ bucketOf (i + 1) ≠ bucketOf i)

end GnuHash

/-- The largest of some words, with one that is there already. -/
def largest : List Nat → Option Nat → Option Nat
  | [], best => best
  | word :: words, best => largest words (some (best.elim word fun m => max m word))

theorem largest_spec {words : List Nat} {best : Option Nat} {m : Nat}
    (h : largest words best = some m) :
    (m ∈ words ∨ best = some m) ∧ (∀ w ∈ words, w ≤ m) ∧ ∀ b, best = some b → b ≤ m := by
  induction words generalizing best with
  | nil => exact ⟨Or.inr h, fun w hw => absurd hw List.not_mem_nil, fun b hb =>
      Nat.le_of_eq (Option.some.inj (hb.symm.trans h))⟩
  | cons word words ih =>
    obtain ⟨hmem, hwords, hbest⟩ := ih h
    have hhead := hbest _ rfl
    refine ⟨?_, fun w hw => ?_, fun b hb => ?_⟩
    · obtain hmem | hmem := hmem
      · exact Or.inl (List.mem_cons_of_mem _ hmem)
      · cases best with
        | none =>
          obtain rfl : word = m := Option.some.inj hmem
          exact Or.inl List.mem_cons_self
        | some b =>
          obtain rfl : max b word = m := Option.some.inj hmem
          obtain hle | hle := Nat.le_total b word
          · exact Or.inl (by rw [Nat.max_eq_right hle]; exact List.mem_cons_self)
          · exact Or.inr (by rw [Nat.max_eq_left hle])
    · obtain rfl | hw := List.mem_cons.mp hw
      · cases best with
        | none => exact hhead
        | some b => exact le_trans (Nat.le_max_right b w) hhead
      · exact hwords w hw
    · subst hb
      exact le_trans (Nat.le_max_left b word) hhead

theorem exists_largest {words : List Nat} (h : 0 < words.length) :
    ∃ m, largest words none = some m := by
  have hsome : ∀ (words : List Nat) (b : Nat), ∃ m, largest words (some b) = some m := by
    intro words
    induction words with
    | nil => exact fun b => ⟨b, rfl⟩
    | cons word words ih => exact fun b => ih _
  obtain _ | ⟨word, words⟩ := words
  · exact absurd h (Nat.lt_irrefl 0)
  · exact hsome words word

/-- The loop over the buckets finds the largest of them. -/
theorem bucketMax_eq {words : List Nat} (hfits : ∀ w ∈ words, w < 2 ^ 32)
    (hbuf : buf.length ≤ isizeMax) {i : Nat} (best : Option Nat)
    (h : words.flatMap (wordBytes be 4) <+: buf.drop (4 * i)) :
    bucketMax be buf words.length i best = some (largest words best) := by
  induction words generalizing i best with
  | nil => rfl
  | cons word words ih =>
    rw [List.flatMap_cons] at h
    obtain ⟨hword, hrest⟩ := prefix_append h
    rw [length_wordBytes] at hrest
    have hread : getU32 buf (i * 4) be = some word := by
      rw [Nat.mul_comm]
      exact getUint_standing hword (by decide) (hfits word List.mem_cons_self) hbuf
    rw [List.length_cons, bucketMax, hread]
    exact ih (fun w hw => hfits w (List.mem_cons_of_mem _ hw)) _ hrest

namespace GnuHash

variable {t : GnuHash} {bucketOf : Nat → Nat}

/-- The largest bucket head is the first symbol of the group that comes last. -/
theorem Conforms.lastHead (h : t.Conforms bucketOf) {m : Nat}
    (hm : largest t.buckets none = some m) (hchain : 0 < t.chain.length) :
    ∃ i < t.chain.length, m = t.symoffset + i ∧
      ∀ j, i ≤ j → j < t.chain.length → bucketOf j = bucketOf (t.chain.length - 1) := by
  obtain ⟨hmem, hall, -⟩ := largest_spec hm
  -- the group of the last symbol has a first symbol, which its bucket holds
  have hlast : t.chain.length - 1 < t.chain.length := by omega
  have hbucket := h.bucketOf_lt _ hlast
  obtain ⟨first, hfirst, hof, hisFirst, hhead⟩ | ⟨hnone, -⟩ :=
    h.heads _ _ (List.getElem?_eq_getElem hbucket)
  · have hle : t.symoffset + first ≤ m := hhead ▸ hall _ (List.getElem_mem hbucket)
    have hbucketMem := hmem.resolve_right fun hn => nomatch hn
    obtain ⟨b, hb⟩ := List.mem_iff_getElem?.mp hbucketMem
    obtain ⟨i, hi, hiof, hiFirst, rfl⟩ | ⟨-, rfl⟩ := h.heads b m hb
    · refine ⟨i, hi, rfl, fun j hij hj => ?_⟩
      -- no group begins behind the first symbol of the last one
      have hsame : bucketOf i = bucketOf first :=
        h.grouped first i (t.chain.length - 1) (by omega) (by omega) hlast (by rw [hof])
      rw [h.grouped i j (t.chain.length - 1) hij (by omega) hlast (by rw [hsame, hof]), hsame, hof]
    · have hpos := h.symoffset_pos
      omega
  · exact absurd rfl (hnone _ hlast)

/-- Without hashed symbols all buckets are empty. -/
theorem Conforms.largest_zero (h : t.Conforms bucketOf) {m : Nat}
    (hm : largest t.buckets none = some m) (hchain : t.chain.length = 0) : m = 0 := by
  obtain ⟨hmem, -, -⟩ := largest_spec hm
  obtain ⟨b, hb⟩ := List.mem_iff_getElem?.mp (hmem.resolve_right fun hn => nomatch hn)
  obtain ⟨i, hi, -⟩ | ⟨-, hzero⟩ := h.heads b m hb
  · omega
  · exact hzero

/-! ## The number of symbols -/

/-- Where the bloom words, the buckets and the chain begin. -/
def bucketsOffset (t : GnuHash) (bitness : Nat) : Nat := 16 + wordWidth bitness * t.bloom.length

def chainOffset (t : GnuHash) (bitness : Nat) : Nat := t.bucketsOffset bitness + 4 * t.buckets.length

/-- The parts of an encoded table. -/
theorem encode_parts (t : GnuHash) (bitness : Nat) (be : Bool) :
    t.header.flatMap (wordBytes be 4) <+:
        (t.encode bitness be).drop 0 ∧
      t.buckets.flatMap (wordBytes be 4) <+: (t.encode bitness be).drop (t.bucketsOffset bitness) ∧
      t.chain.flatMap (wordBytes be 4) <+: (t.encode bitness be).drop (t.chainOffset bitness) := by
  have hwhole : t.encode bitness be <+: (t.encode bitness be).drop 0 := List.prefix_rfl
  obtain ⟨hheader, hrest⟩ := prefix_append hwhole
  rw [length_words] at hrest
  obtain ⟨-, hrest⟩ := prefix_append hrest
  rw [length_words] at hrest
  obtain ⟨hbuckets, hchain⟩ := prefix_append hrest
  rw [length_words] at hchain
  have hoffset : 0 + 4 * t.header.length +
      wordWidth bitness * t.bloom.length = t.bucketsOffset bitness := by
    simp [bucketsOffset, header]
  rw [hoffset] at hbuckets hchain
  exact ⟨hheader, hbuckets, hchain⟩

theorem length_encode (t : GnuHash) (bitness : Nat) (be : Bool) :
    (t.encode bitness be).length = t.chainOffset bitness + 4 * t.chain.length := by
  unfold encode header chainOffset bucketsOffset
  simp only [List.length_append, length_words, List.length_cons, List.length_nil]
  omega

variable {elf : Elf} {phdrs : List Phdr} {phdr : Phdr} {vaddr : Nat}

/-- From a symbol of the last group the walk goes on to the last symbol of all. -/
theorem Conforms.chainEnd_last (h : t.Conforms bucketOf)
    (hphdrs : elf.programHeaders.outcome = .ok phdrs)
    (hmapped : Mapped phdrs phdr vaddr (t.encode elf.bitness elf.bigEndian))
    (hcount : t.numSymbols ≤ u32Max) {steps i : Nat} (hi : i < t.chain.length)
    (hgroup : ∀ j, i ≤ j → j < t.chain.length → bucketOf j = bucketOf (t.chain.length - 1))
    (hsteps : t.chain.length - i ≤ steps) :
    Gives (chainEnd elf (vaddr + t.chainOffset elf.bitness) t.symoffset steps (t.symoffset + i))
      t.numSymbols := by
  induction steps generalizing i with
  | zero => omega
  | succ steps ih =>
    have hword : t.chain[i]? = some t.chain[i] := List.getElem?_eq_getElem hi
    have hpart := prefix_flatMap (length_wordBytes 4) (encode_parts t elf.bitness elf.bigEndian).2.2
      hword
    have hlength := length_encode t elf.bitness elf.bigEndian
    have haddr := (hmapped.bounds
      (show vaddr ≤ vaddr + t.chainOffset elf.bitness + i * 4 by omega) (by omega)).2
    have hread := hmapped.readWord hphdrs hpart
    have hvalue : getU32 (wordBytes elf.bigEndian 4 t.chain[i]) 0 elf.bigEndian =
        some t.chain[i] :=
      getUint_standing List.prefix_rfl (by decide) (h.chain_fits _ (List.getElem_mem hi))
        (by rw [length_wordBytes]; decide)
    have hplace : vaddr + (t.chainOffset elf.bitness + 4 * i) =
        vaddr + t.chainOffset elf.bitness + i * 4 := by omega
    rw [hplace] at hread
    rw [chainEnd]
    refine (gives_ofRun (subUsize_ok (Nat.le_add_right _ _))).bind ?_
    rw [Nat.add_sub_cancel_left]
    refine (gives_ofOption (checkedAdd_ok haddr)).bind (hread.bind ?_)
    refine (gives_ofOption hvalue).bind ?_
    have hend := h.terminators i _ hword
    by_cases hfinal : t.chain[i] % 2 = 1
    · -- the last symbol of a group that no other follows is the last of all
      have hlast : i + 1 = t.chain.length := by
        obtain hlast | hnext := hend.mp hfinal
        · exact hlast
        · by_contra hmore
          apply hnext
          rw [hgroup (i + 1) (by omega) (by omega), hgroup i (Nat.le_refl i) hi]
      rw [if_pos (by omega)]
      have hsum : t.symoffset + i + 1 = t.numSymbols := by
        unfold numSymbols
        omega
      rw [hsum]
      exact gives_pure _
    · have hmore : i + 1 ≠ t.chain.length := fun hlast => hfinal (hend.mpr (Or.inl hlast))
      have hnext : t.symoffset + i < u32Max := by
        unfold numSymbols at hcount
        omega
      rw [if_neg (by omega), if_pos hnext, Nat.add_assoc]
      exact ih (by omega) (fun j hij => hgroup j (by omega)) (by omega)

theorem Conforms.buckets_fit (h : t.Conforms bucketOf) (hcount : t.numSymbols < maxChainSteps) :
    ∀ w ∈ t.buckets, w < 2 ^ 32 := by
  intro w hw
  obtain ⟨b, hb⟩ := List.mem_iff_getElem?.mp hw
  unfold numSymbols at hcount
  have hlimit : maxChainSteps < 2 ^ 32 := by decide
  obtain ⟨i, hi, -, -, rfl⟩ | ⟨-, rfl⟩ := h.heads b w hb
  · omega
  · decide

/-- The header is read as one part, and its fields from that. -/
theorem Conforms.readHeader (h : t.Conforms bucketOf)
    (hphdrs : elf.programHeaders.outcome = .ok phdrs)
    (hmapped : Mapped phdrs phdr vaddr (t.encode elf.bitness elf.bigEndian)) :
    Gives (elf.readData vaddr 16) (t.header.flatMap (wordBytes elf.bigEndian 4)) ∧
      ∀ i w, t.header[i]? = some w →
        getU32 (t.header.flatMap (wordBytes elf.bigEndian 4)) (4 * i) elf.bigEndian = some w := by
  obtain ⟨hheader, -, -⟩ := encode_parts t elf.bitness elf.bigEndian
  have hfour : 4 * t.header.length ≤ isizeMax := by
    rw [show t.header.length = 4 from rfl]
    decide
  have hread := hmapped.readData hphdrs (by rw [length_words]; exact Nat.zero_lt_succ 15) hheader
  rw [length_words, show t.header.length = 4 from rfl, Nat.add_zero] at hread
  exact ⟨hread, fun i w hw => getU32_words h.header_fits hfour hw⟩

/-- The buckets are read as one part, and the largest of them is found. -/
theorem Conforms.readBuckets (h : t.Conforms bucketOf)
    (hphdrs : elf.programHeaders.outcome = .ok phdrs)
    (hmapped : Mapped phdrs phdr vaddr (t.encode elf.bitness elf.bigEndian))
    (hcount : t.numSymbols < maxChainSteps) :
    Gives (elf.readData (vaddr + t.bucketsOffset elf.bitness) (t.buckets.length * 4))
        (t.buckets.flatMap (wordBytes elf.bigEndian 4)) ∧
      ∃ m, largest t.buckets none = some m ∧
        bucketMax elf.bigEndian (t.buckets.flatMap (wordBytes elf.bigEndian 4)) t.buckets.length 0
          none = some (some m) := by
  obtain ⟨-, hbuckets, -⟩ := encode_parts t elf.bitness elf.bigEndian
  have hpos := h.buckets_pos
  have hlength := length_encode t elf.bitness elf.bigEndian
  have hroom := length_standing hmapped.standing
  have hmax := hmapped.room
  have hoffsets : t.chainOffset elf.bitness = t.bucketsOffset elf.bitness + 4 * t.buckets.length :=
    rfl
  have hread := hmapped.readData hphdrs (by rw [length_words]; omega) hbuckets
  rw [length_words, Nat.mul_comm] at hread
  obtain ⟨m, hm⟩ := exists_largest h.buckets_pos
  have hwhole : t.buckets.flatMap (wordBytes elf.bigEndian 4) <+:
      (t.buckets.flatMap (wordBytes elf.bigEndian 4)).drop (4 * 0) := List.prefix_rfl
  have hbest := bucketMax_eq (h.buckets_fit hcount) (by rw [length_words]; omega) none hwhole
  rw [hm] at hbest
  exact ⟨hread, m, hm, hbest⟩

/-- The number of symbols is that of the table. -/
theorem Conforms.gnuHashNumSymbols (h : t.Conforms bucketOf)
    (hphdrs : elf.programHeaders.outcome = .ok phdrs)
    (hmapped : Mapped phdrs phdr vaddr (t.encode elf.bitness elf.bigEndian))
    (hcount : t.numSymbols < maxChainSteps) :
    Gives (gnuHashNumSymbols elf vaddr) t.numSymbols := by
  have hlength := length_encode t elf.bitness elf.bigEndian
  have hoffsets : t.chainOffset elf.bitness = t.bucketsOffset elf.bitness + 4 * t.buckets.length :=
    rfl
  have hbloom : t.bucketsOffset elf.bitness = 16 + wordWidth elf.bitness * t.bloom.length := rfl
  have hpos := h.buckets_pos
  have hroom := length_standing hmapped.standing
  have hmax := hmapped.room
  have hbig : isizeMax < 2 ^ 63 := by decide
  have hcomm := Nat.mul_comm (wordWidth elf.bitness) t.bloom.length
  have haddr := (hmapped.bounds
    (show vaddr ≤ vaddr + t.bucketsOffset elf.bitness by omega) (by omega)).2
  have hplace : vaddr + 16 + t.bloom.length * wordWidth elf.bitness =
      vaddr + t.bucketsOffset elf.bitness := by
    rw [hbloom, Nat.mul_comm, Nat.add_assoc]
  obtain ⟨hread, hfield⟩ := h.readHeader hphdrs hmapped
  obtain ⟨hreadBuckets, m, hm, hbest⟩ := h.readBuckets hphdrs hmapped hcount
  unfold ElfOs.gnuHashNumSymbols
  refine hread.bind ?_
  refine (gives_ofOption (hfield 0 _ rfl)).bind ?_
  refine (gives_ofOption (hfield 1 _ rfl)).bind ?_
  refine (gives_ofOption (hfield 2 _ rfl)).bind ?_
  refine (gives_ofOption (checkedAdd_ok (by omega))).bind ?_
  refine (gives_ofOption (checkedMul_ok (by omega))).bind ?_
  refine (gives_ofOption (checkedAdd_ok (by omega))).bind ?_
  refine (gives_ofOption (checkedMul_ok (by omega))).bind ?_
  rw [hplace]
  refine hreadBuckets.bind ((gives_ofOption hbest).bind ((gives_ofOption rfl).bind ?_))
  have hsteps : maxChainSteps ≤ u32Max := by decide
  by_cases hchain : t.chain.length = 0
  · have hsymoffset := h.symoffset_pos
    have hsum : t.symoffset = t.numSymbols := by
      unfold numSymbols
      omega
    rw [h.largest_zero hm hchain, if_pos (by omega), hsum]
    exact gives_pure _
  · obtain ⟨i, hi, rfl, hgroup⟩ := h.lastHead hm (by omega)
    have hchainAddr := (hmapped.bounds
      (show vaddr ≤ vaddr + t.chainOffset elf.bitness by omega) (by omega)).2
    have hchainPlace : vaddr + t.bucketsOffset elf.bitness + t.buckets.length * 4 =
        vaddr + t.chainOffset elf.bitness := by omega
    rw [if_neg (by omega)]
    refine (gives_ofOption (checkedAdd_ok (by omega))).bind ?_
    rw [hchainPlace]
    refine h.chainEnd_last hphdrs hmapped (by omega) hi hgroup ?_
    unfold numSymbols at hcount
    omega

end GnuHash

end CapaX.ElfOs
