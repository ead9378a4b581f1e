import CapaX.Isa.A64Load
import CapaX.Recovery.ArmSwitch

/-
  PLT stubs (`decoder.rs`, `aarch64_plt_got_target`) under the instruction set: an ADRP, then an LDR
  that should be the one with an unsigned offset. The mnemonics are those the decoder reports;
  `Mnemonics` says what is relied on.
-/

namespace CapaX.Recovery

open A64

/-- The words of ADRP. -/
def IsAdrp (w : Word) : Prop := w &&& 0x9f000000#32 = 0x90000000#32

instance : DecidablePred IsAdrp := fun _ => inferInstanceAs (Decidable (_ = _))

/-- The decoder names ADRP and nothing else so, and it names every LDR of the base set so. -/
structure Mnemonics (mnemonic : Word → Option String) : Prop where
  adrp : ∀ w, mnemonic w = some "adrp" ↔ IsAdrp w
  ldr : ∀ w, (decodeLdr w).isSome → mnemonic w = some "ldr"

/-- `adrp Xn, page; ldr Xt, [Xn, #off]`. Register 31 is no such `Xn`: ADRP writes the zero register,
    and the base is the stack pointer. -/
def IsStub (adrp ldr : Word) : Prop :=
  IsAdrp adrp ∧ bits adrp 0 5 ≠ 31#5 ∧
    ∃ imm rt, decodeLdr ldr = some ⟨false, 3, .unsignedOffset imm, bits adrp 0 5, rt⟩

/-- What the second of two instructions loads when they are executed: the address and the number of
    bytes. -/
def loaded (pc : BitVec 64) (first second : Word) (s : State) : Option (BitVec 64 × Nat) := do
  let instr ← decode first
  match ← exec (fun _ => none) pc s instr with
  | .next s' =>
    let load ← decodeLdr second
    some (load.address (pc + 4#64) s', load.bytes)
  | _ => none

section

variable {A : Architecture} {image : LoadedImage A} {first second : Located A} {adrp ldr : Word}
  {mnemonic : Word → Option String}

/-- The instructions of an image that were decoded from two words. -/
structure Decoded (image : LoadedImage A) (mnemonic : Word → Option String)
    (first second : Located A) (adrp ldr : Word) : Prop where
  first_word : armWord image first = some adrp
  second_word : armWord image second = some ldr
  first_name : first.insn.aarch64Opcode = mnemonic adrp
  second_name : second.insn.aarch64Opcode = mnemonic ldr

/-- What is promised of a recognized pair, and of every stub. -/
def StubSound (image : LoadedImage A) (first second : Located A) (adrp ldr : Word) : Prop :=
  (∀ t, aarch64PltGotTarget image first second = some t →
    IsStub adrp ldr ∧ ∀ s, loaded first.address.toBitVec adrp ldr s = some (t.toBitVec, 8)) ∧
  (IsStub adrp ldr → ∃ t, aarch64PltGotTarget image first second = some t ∧
    ∀ s, loaded first.address.toBitVec adrp ldr s = some (t.toBitVec, 8))

/-- An ADRP and another LDR whose top bits are set, with the same register in the two fields: the
    check does not tell it from a stub. -/
def FalseStub (mnemonic : Word → Option String) (adrp ldr : Word) : Prop :=
  IsAdrp adrp ∧ mnemonic ldr = some "ldr" ∧ bits ldr 30 2 = 0b11#2 ∧
    bits adrp 0 5 = bits ldr 5 5 ∧ (¬ IsLdrUnsigned ldr ∨ bits adrp 0 5 = 31#5)

/-- The address the recognizer computes. -/
def gotSlot (address : UInt64) (adrp ldr : Word) : UInt64 :=
  pageOf address + UInt64.ofInt (adrpOffset adrp) + UInt64.ofNat (8 * field ldr 10 12)

theorem aarch64PltGotTarget_eq (hd : Decoded image mnemonic first second adrp ldr) :
    aarch64PltGotTarget image first second =
      if mnemonic adrp = some "adrp" ∧ mnemonic ldr = some "ldr" ∧ bits ldr 30 2 = 0b11#2 ∧
        bits adrp 0 5 = bits ldr 5 5 then some (gotSlot first.address adrp ldr) else none := by
  have hname : ∀ {l : Located A} {w : Word}, armWord image l = some w →
      ∃ name, l.insn.aarch64Opcode = some name := by
    intro l w h
    obtain ⟨name, hname, -⟩ := Option.bind_eq_some_iff.mp h
    exact ⟨name, hname⟩
  obtain ⟨name, hfirst⟩ := hname hd.first_word
  obtain ⟨name', hsecond⟩ := hname hd.second_word
  have hwide : field ldr 30 2 = 3 ↔ bits ldr 30 2 = 0b11#2 :=
    ⟨fun h => BitVec.eq_of_toNat_eq h, fun h => congrArg BitVec.toNat h⟩
  have hsame : field adrp 0 5 = field ldr 5 5 ↔ bits adrp 0 5 = bits ldr 5 5 :=
    ⟨fun h => BitVec.eq_of_toNat_eq h, fun h => congrArg BitVec.toNat h⟩
  simp only [aarch64PltGotTarget, ← hd.first_name, ← hd.second_name, hfirst, hsecond,
    hd.first_word, hd.second_word, gotSlot, ← hwide, ← hsame, Option.bind_eq_bind,
    Option.bind_some, Option.some.injEq, ne_eq]
  by_cases hadrp : name = "adrp"
  · by_cases hldr : name' = "ldr"
    · by_cases hsize : field ldr 30 2 = 3
      · by_cases hreg : field adrp 0 5 = field ldr 5 5
        · simp [hadrp, hldr, hsize, hreg]
        · simp [hadrp, hldr, hsize, hreg]
      · simp [hadrp, hldr, hsize]
    · simp [hadrp, hldr]
  · simp [hadrp]

theorem toBitVec_ofInt (i : Int) : (UInt64.ofInt i).toBitVec = BitVec.ofInt 64 i := by
  apply BitVec.eq_of_toNat_eq
  have hnonneg : 0 ≤ i % (2 ^ 64 : Int) := Int.emod_nonneg i (by decide)
  have hlt : i % (2 ^ 64 : Int) < 2 ^ 64 := Int.emod_lt_of_pos i (by decide)
  have hsmall : (i % (2 ^ 64 : Int)).toNat < 2 ^ 64 := by omega
  rw [BitVec.toNat_ofInt]
  exact Nat.mod_eq_of_lt hsmall

theorem isStub_iff {adrp ldr : Word} : IsStub adrp ldr ↔
    IsAdrp adrp ∧ bits adrp 0 5 ≠ 31#5 ∧ IsLdrUnsigned ldr ∧ bits adrp 0 5 = bits ldr 5 5 := by
  constructor
  · intro ⟨hadrp, hne, imm, rt, hldr⟩
    have hunsigned := isLdrUnsigned_of_decodeLdr hldr
    rw [decodeLdr_unsigned hunsigned] at hldr
    exact ⟨hadrp, hne, hunsigned, (congrArg Load.rn (Option.some.inj hldr)).symm⟩
  · intro ⟨hadrp, hne, hldr, hsame⟩
    exact ⟨hadrp, hne, _, _, by rw [decodeLdr_unsigned hldr, hsame]⟩

/-- A stub loads the eight bytes at the address the recognizer computes, whatever the registers
    hold. -/
theorem loaded_stub (h : IsStub adrp ldr) (address : UInt64) (s : State) :
    loaded address.toBitVec adrp ldr s = some ((gotSlot address adrp ldr).toBitVec, 8) := by
  obtain ⟨hadrp, hne, hldr, hsame⟩ := isStub_iff.mp h
  have hexec : exec (fun _ => none) address.toBitVec s
      (.adrp ((bits adrp 5 19 ++ bits adrp 29 2).signExtend 64 <<< 12) (bits adrp 0 5)) =
      some (.next (s.write (bits adrp 0 5)
        (pageOf address + UInt64.ofInt (adrpOffset adrp)).toBitVec)) := by
    rw [exec, State.writeZ_of_ne hne, ← adrpOffset_eq, ← pageOf_toBitVec, UInt64.toBitVec_add,
      toBitVec_ofInt]
  have hscale : (bits ldr 10 12).setWidth 64 <<< 3 =
      (UInt64.ofNat (8 * field ldr 10 12)).toBitVec := by
    rw [setWidth_eq_ofNat, BitVec.shiftLeft_eq_mul_twoPow, Nat.mul_comm]
    exact (BitVec.ofNat_mul ..).symm
  rw [loaded, decode_adrp hadrp, decodeLdr_unsigned hldr]
  simp only [Option.bind_eq_bind, Option.bind_some, hexec]
  rw [Load.address, ← hsame, State.reg_write_self, hscale]
  rfl

/-- The recognizer accepts the stubs and computes what they load, unless the pair is an ADRP with
    another LDR that it takes for one. -/
theorem stubSound_iff (hm : Mnemonics mnemonic)
    (hd : Decoded image mnemonic first second adrp ldr) :
    StubSound image first second adrp ldr ↔ ¬ FalseStub mnemonic adrp ldr := by
  have htarget := aarch64PltGotTarget_eq hd
  constructor
  · intro hsound ⟨hadrp, hldr, hsize, hsame, hfalse⟩
    rw [if_pos ⟨(hm.adrp adrp).mpr hadrp, hldr, hsize, hsame⟩] at htarget
    obtain ⟨-, hne, hunsigned, -⟩ := isStub_iff.mp (hsound.1 _ htarget).1
    rcases hfalse with hother | hzero
    · exact hother hunsigned
    · exact hne hzero
  · intro hgood
    constructor
    · intro t ht
      rw [htarget] at ht
      split at ht
      · rename_i haccept
        obtain ⟨hadrp, hldr, hsize, hsame⟩ := haccept
        have hisAdrp := (hm.adrp adrp).mp hadrp
        have hstub : IsStub adrp ldr := by
          by_contra hnot
          apply hgood
          refine ⟨hisAdrp, hldr, hsize, hsame, ?_⟩
          by_contra hneither
          obtain ⟨hunsigned, hne⟩ := not_or.mp hneither
          exact hnot (isStub_iff.mpr ⟨hisAdrp, hne, not_not.mp hunsigned, hsame⟩)
        cases ht
        exact ⟨hstub, loaded_stub hstub first.address⟩
      · cases ht
    · intro hstub
      obtain ⟨hadrp, hne, hunsigned, hsame⟩ := isStub_iff.mp hstub
      have hldr : mnemonic ldr = some "ldr" :=
        hm.ldr ldr (by rw [decodeLdr_unsigned hunsigned]; rfl)
      have hsize : bits ldr 30 2 = 0b11#2 := bits_of_mask hunsigned (by decide)
      rw [if_pos ⟨(hm.adrp adrp).mpr hadrp, hldr, hsize, hsame⟩] at htarget
      exact ⟨_, htarget, loaded_stub hstub first.address⟩

end

/-! ## A load that is not one of a stub -/

/-- The mnemonics of the words modelled here. -/
def baseMnemonic (w : Word) : Option String :=
  if IsAdrp w then some "adrp" else if (decodeLdr w).isSome then some "ldr" else none

theorem mnemonics_baseMnemonic : Mnemonics baseMnemonic where
  adrp w := by
    by_cases hadrp : IsAdrp w
    · simp [baseMnemonic, hadrp]
    · by_cases hldr : (decodeLdr w).isSome = true
      · simp [baseMnemonic, hadrp, hldr]
      · simp [baseMnemonic, hadrp, hldr]
  ldr w hldr := by
    have hnot : ¬ IsAdrp w := by
      intro hadrp
      have hclass : w.getLsbD 27 = false := getLsbD_of_mask hadrp (by decide)
      have hload : ∀ {value : BitVec 3}, bits w 27 3 = value → value.getLsbD 0 = false := by
        intro value h
        rw [← getLsbD_of_bits h (by decide)]
        exact hclass
      rw [decodeLdr, if_neg (fun h => absurd (hload h) (by decide)),
        if_neg (fun h => absurd (hload h.1) (by decide))] at hldr
      cases hldr
    rw [baseMnemonic, if_neg hnot, if_pos hldr]

/-- Two words at 0x1000. -/
def pairImage (words : List Word) : LoadedImage .aarch64 where
  sections := [⟨0x1000, 8, ⟨true, false, true⟩⟩]
  externalBindings := ∅
  uninitialized := []
  mappedBytes := [words.flatMap fun w =>
    [0, 8, 16, 24].map fun i => UInt8.ofNat (w.extractLsb' i 8).toNat]
  decodeAt := fun _ => .error "not decoded"

def pairAt (words : List Word) (index : Nat) : Located .aarch64 where
  address := 0x1000 + 4 * UInt64.ofNat index
  insn :=
    { nextAddress := 0x1004 + 4 * UInt64.ofNat index
      flow := .next
      directTarget := none
      memoryTarget := none
      arch := ⟨words[index]?.bind baseMnemonic⟩ }

/-- `adrp x16, 0x1000; ldr x17, [x16, #16]`. -/
def pltWords : List Word := [0x90000010, 0xf9400a11]

/-- `adrp x0, 0x1000; ldr x0, [x0, #8]!`. -/
def preIndexedWords : List Word := [0x90000000, 0xf8408c00]

theorem decoded_plt : Decoded (pairImage pltWords) baseMnemonic (pairAt pltWords 0)
    (pairAt pltWords 1) 0x90000010 0xf9400a11 where
  first_word := by decide +kernel
  second_word := by decide +kernel
  first_name := rfl
  second_name := rfl

/-- A stub as linkers write it is taken for one, with the slot that it loads. -/
theorem stubSound_iff_plt :
    StubSound (pairImage pltWords) (pairAt pltWords 0) (pairAt pltWords 1) 0x90000010 0xf9400a11 ∧
      aarch64PltGotTarget (pairImage pltWords) (pairAt pltWords 0) (pairAt pltWords 1) =
        some 0x1010 := by
  refine ⟨(stubSound_iff mnemonics_baseMnemonic decoded_plt).mpr fun hfalse => ?_,
    by decide +kernel⟩
  obtain ⟨-, -, -, -, hother | hzero⟩ := hfalse
  · exact hother (by decide)
  · exact absurd hzero (by decide)

/-- The other pair is taken for a stub as well. -/
theorem stubSound_fails :
    aarch64PltGotTarget (pairImage preIndexedWords) (pairAt preIndexedWords 0)
        (pairAt preIndexedWords 1) = some 0x1118 ∧
      ¬ IsStub 0x90000000 0xf8408c00 ∧
      ¬ StubSound (pairImage preIndexedWords) (pairAt preIndexedWords 0) (pairAt preIndexedWords 1)
        0x90000000 0xf8408c00 := by
  have htarget : aarch64PltGotTarget (pairImage preIndexedWords) (pairAt preIndexedWords 0)
      (pairAt preIndexedWords 1) = some 0x1118 := by
    decide +kernel
  have hnot : ¬ IsStub 0x90000000 0xf8408c00 := by
    rw [isStub_iff]
    decide
  exact ⟨htarget, hnot, fun hsound => hnot (hsound.1 _ htarget).1⟩

end CapaX.Recovery
