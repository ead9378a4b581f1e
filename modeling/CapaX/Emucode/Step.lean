import CapaX.Emucode.Values

/-
  A step of the emulator against the processor. `Reported` says what the decoder reports of an
  instruction; `step_sound`: from a state that agrees with the processor, a step ends in one that
  agrees with it after the instruction.
-/

namespace CapaX.Emucode

open Collections Recovery X86

/-! ## What the decoder reports -/

/-- A second operand: a register, or an immediate of any kind that has its width. -/
inductive SrcReported : {w : Nat} → Src w → Operand → Prop
  | reg {w : Nat} (r : Reg w) : SrcReported (.reg r) (.register (.of r))
  | immediate8 (value : BitVec 8) : SrcReported (.imm value) (.immediate8 value)
  | immediate16 (value : BitVec 16) : SrcReported (.imm value) (.immediate16 value)
  | immediate32 (value : BitVec 32) : SrcReported (.imm value) (.immediate32 value)
  | immediate64 (value : BitVec 64) : SrcReported (.imm value) (.immediate64 value)
  | immediate8to16 (value : BitVec 16) : SrcReported (.imm value) (.immediate8to16 value)
  | immediate8to32 (value : BitVec 32) : SrcReported (.imm value) (.immediate8to32 value)
  | immediate8to64 (value : BitVec 64) : SrcReported (.imm value) (.immediate8to64 value)
  | immediate32to64 (value : BitVec 64) : SrcReported (.imm value) (.immediate32to64 value)

def optionalRegister {w : Nat} (r : Option (Reg w)) : Register := (r.map Register.of).getD .none

/-- An address of 32 or 64 bits. The displacement is right in these bits, and absolute addresses
    have no more. -/
def AddressReported {w : Nat} (m : MemoryOperand) : X86.Address w → Prop
  | .indexed base index scale displacement =>
    m.ipRelative = none ∧ m.base = optionalRegister base ∧ m.index = optionalRegister index ∧
      m.indexScale = scale ∧ m.displacement.setWidth w = displacement ∧
      (base = none → index = none → m.displacement = displacement.setWidth 64)
  | .relative target => m.ipRelative = some (target.setWidth 64)

def binaryMnemonic : Binary → Mnemonic
  | .add => .add
  | .sub => .sub
  | .and => .and
  | .or => .or
  | .xor => .xor

def unaryMnemonic : Unary → Mnemonic
  | .inc => .inc
  | .dec => .dec
  | .neg => .neg
  | .not => .not

def isShiftMnemonic (mnemonic : Mnemonic) : Shift → Prop
  | .shl => mnemonic = .shl ∨ mnemonic = .sal
  | .shr => mnemonic = .shr
  | .sar => mnemonic = .sar

def Takes {w v : Nat} (op : Instruction) (dst : Reg w) (src : Reg v) : Prop :=
  op.operands = [.register (.of dst), .register (.of src)]

def TakesSrc {w v : Nat} (op : Instruction) (dst : Reg w) (src : Src v) : Prop :=
  ∃ o, SrcReported src o ∧ op.operands = [.register (.of dst), o]

/-- The mnemonic and operands of an instruction. -/
def OperandsReported (op : Instruction) : Instr → Prop
  | .mov dst src => op.mnemonic = .mov ∧ TakesSrc op dst src
  | .movzx dst src => op.mnemonic = .movzx ∧ Takes op dst src
  | .movsx dst src => (op.mnemonic = .movsx ∨ op.mnemonic = .movsxd) ∧ Takes op dst src
  | @Instr.lea _ v dst address =>
    op.mnemonic = .lea ∧ op.operands = [.register (.of dst), .memory] ∧ (v = 32 ∨ v = 64) ∧
      AddressReported op.memory address
  | .binary operator dst src => op.mnemonic = binaryMnemonic operator ∧ TakesSrc op dst src
  | .cmp dst src => op.mnemonic = .cmp ∧ TakesSrc op dst src
  | .test dst src => op.mnemonic = .test ∧ TakesSrc op dst src
  | .unary operator dst =>
    op.mnemonic = unaryMnemonic operator ∧ op.operands = [.register (.of dst)]
  | .shift operator dst count => isShiftMnemonic op.mnemonic operator ∧ TakesSrc op dst count
  | .imul dst src => op.mnemonic = .imul ∧ Takes op dst src
  | .imulImm dst src imm =>
    op.mnemonic = .imul ∧ ∃ o, SrcReported (.imm imm) o ∧
      op.operands = [.register (.of dst), .register (.of src), o]
  | .xchg dst src => op.mnemonic = .xchg ∧ Takes op dst src
  | .xadd dst src => op.mnemonic = .xadd ∧ Takes op dst src
  | .setcc c dst =>
    op.mnemonic = .setcc ∧ op.conditionCode = some c ∧ op.operands = [.register (.of dst)]
  | .cmovcc c dst src => op.mnemonic = .cmovcc ∧ op.conditionCode = some c ∧ Takes op dst src

/-- What the decoder reports of an instruction: one that it says to modify no flags keeps them. -/
structure Reported (A : Architecture) (op : Instruction) (i : Instr) : Prop where
  operands : OperandsReported op i
  flags : op.rflagsModified = 0 → ∀ undef cpu, (exec undef cpu i).flags = cpu.flags
  fits : i.Fits A.bitness

/-! ## Operands -/

section

variable {A : Architecture} {image : Image A} {op : Instruction} {w : Nat} {s : State} {cpu : Cpu}

theorem operand_register {r : Register} {k : Nat} (h : op.operandAt k = .register r) :
    s.operand image op k = s.register r := by
  rw [State.operand, h]

theorem assign_register {r : Register} {k : Nat} {v : Option (BitVec 64)}
    (h : op.operandAt k = .register r) : s.assign image op k v = s.setRegister r v := by
  rw [State.assign, h]

theorem Agrees.source (h : Agrees A s cpu) (hw : w ≤ A.bitness) {src : Src w} {o : Operand}
    {k : Nat} (hsrc : SrcReported src o) (ho : op.operandAt k = o) :
    Represents (s.operand image op k) (cpu.source src) := by
  unfold State.operand
  rw [ho]
  cases hsrc with
  | reg r => exact h.represents hw
  | immediate8 value => exact represents_some (setWidth_setWidth_self (.low 0) value)
  | immediate16 value => exact represents_some (setWidth_setWidth_self (.word 0) value)
  | immediate32 value => exact represents_some (setWidth_setWidth_self (.dword 0) value)
  | immediate64 value => exact represents_some (BitVec.setWidth_eq value)
  | immediate8to16 value => exact represents_some (setWidth_signExtend_self (.word 0) value)
  | immediate8to32 value => exact represents_some (setWidth_signExtend_self (.dword 0) value)
  | immediate8to64 value => exact represents_some (BitVec.setWidth_eq value)
  | immediate32to64 value => exact represents_some (BitVec.setWidth_eq value)

theorem Agrees.assigned {dst : Reg w} {x : BitVec w} {v : Option (BitVec 64)} {k : Nat}
    (h : Agrees A s cpu) (hdst : op.operandAt k = .register (.of dst)) (hv : Represents v x) :
    Agrees A (s.assign image op k v) (cpu.write dst x) := by
  rw [assign_register hdst]
  exact h.setRegister hv

end

/-! ## Addresses -/

section

variable {A : Architecture} {op : Instruction} {w : Nat} {s : State} {cpu : Cpu}

theorem optionalRegister_size (r : Option (Reg w)) :
    (optionalRegister r).size * 8 = if r = none then 0 else w := by
  cases r with
  | none => rfl
  | some r => exact size_of r

theorem Agrees.optional (h : Agrees A s cpu) (hw : w ≤ A.bitness)
    {r : Option (Reg w)} {p : BitVec 64} (hp : s.register (optionalRegister r) = some p) :
    p = (cpu.optional r).setWidth 64 := by
  cases r with
  | none =>
    have hzero : s.register .none = some 0 := rfl
    rw [← Option.some.inj (hzero.symm.trans hp)]
    simp [Cpu.optional]
  | some r => exact h.register hw hp

/-- The address that is computed is that of the processor. -/
theorem Agrees.address (h : Agrees A s cpu) (hw : w ≤ A.bitness) (hkind : w = 32 ∨ w = 64)
    {a : X86.Address w} (ha : AddressReported op.memory a) {p : BitVec 64}
    (hp : s.address op A = some p) : p = (cpu.effective a).setWidth 64 := by
  unfold State.address at hp
  dsimp only at hp
  split at hp
  · cases hp
  · cases a with
    | relative target =>
      rw [AddressReported] at ha
      rw [ha] at hp
      exact (Option.some.inj hp).symm
    | indexed base index scale displacement =>
      obtain ⟨hrelative, hbase, hindex, hscale, hdisplacement, habsolute⟩ := ha
      rw [hrelative, hbase, hindex] at hp
      obtain ⟨pbase, hpbase, hp⟩ := Option.bind_eq_some_iff.mp hp
      obtain ⟨pindex, hpindex, hp⟩ := Option.bind_eq_some_iff.mp hp
      obtain rfl := h.optional hw hpbase
      obtain rfl := h.optional hw hpindex
      obtain rfl := Option.some.inj hp
      have hbase4 := optionalRegister_size base
      have hindex4 := optionalRegister_size index
      have hself (r : Option (Reg w)) :
          ((cpu.optional r).setWidth 64).setWidth w = cpu.optional r := by
        rw [BitVec.setWidth_setWidth_of_le _ (by omega), BitVec.setWidth_eq]
      have hsum : ((cpu.optional base).setWidth 64 + (cpu.optional index).setWidth 64 *
          BitVec.ofNat 64 op.memory.indexScale + op.memory.displacement).setWidth w =
          cpu.effective (.indexed base index scale displacement) := by
        have hle : w ≤ 64 := by omega
        rw [BitVec.setWidth_add _ _ hle, BitVec.setWidth_add _ _ hle, BitVec.setWidth_mul _ _ hle,
          hself, hself, hdisplacement, BitVec.setWidth_ofNat_of_le hle, hscale]
        rfl
      obtain rfl | rfl := hkind
      · by_cases hfour : A = .x86 ∨ (optionalRegister base).size = 4 ∨
            (optionalRegister index).size = 4
        · rw [if_pos hfour, and_mask (by decide : 4 * 8 = 32), hsum]
        · rw [if_neg hfour, and_mask (by decide : 8 * 8 = 64), BitVec.setWidth_eq,
            BitVec.setWidth_eq]
          have hnone : base = none ∧ index = none := by grind
          obtain ⟨rfl, rfl⟩ := hnone
          rw [habsolute rfl rfl]
          simp [Cpu.optional, Cpu.effective]
      · have hx86 : A ≠ .x86 := by
          intro hA
          rw [hA] at hw
          exact absurd hw (by decide)
        have hfour : ¬(A = .x86 ∨ (optionalRegister base).size = 4 ∨
            (optionalRegister index).size = 4) := by grind
        rw [if_neg hfour, and_mask (by decide : 8 * 8 = 64), hsum]

end

/-! ## Steps -/

section

variable {A : Architecture} {image : Image A} {op : Instruction} {w v : Nat} {s : State} {cpu : Cpu}
  {dst : Reg w} {left right : Option (BitVec 64)}

theorem Takes.takesSrc {src : Reg v} (h : Takes op dst src) : TakesSrc op dst (.reg src) :=
  ⟨_, .reg src, h⟩

theorem operandAt_of_cons {o : Operand} {rest : List Operand} (h : op.operands = o :: rest) :
    op.operandAt 0 = o := by
  rw [Instruction.operandAt, h]
  rfl

theorem TakesSrc.operands (image : Image A) {src : Src v} (htakes : TakesSrc op dst src)
    (h : Agrees A s cpu) (hw : w ≤ A.bitness) (hv : v ≤ A.bitness) :
    op.operandAt 0 = .register (.of dst) ∧ 1 < op.opCount ∧
      Represents (s.operand image op 0) (cpu.read dst) ∧
      Represents (s.operand image op 1) (cpu.source src) := by
  obtain ⟨o, hsrc, hoperands⟩ := htakes
  have hfirst := operandAt_of_cons hoperands
  have hsecond : op.operandAt 1 = o := by
    rw [Instruction.operandAt, hoperands]
    rfl
  refine ⟨hfirst, ?_, h.source hw (.reg dst) hfirst, h.source hv hsrc hsecond⟩
  simp [Instruction.opCount, hoperands]

theorem TakesSrc.same {src : Src w} (htakes : TakesSrc op dst src) (h : op.sameRegister = true) :
    cpu.source src = cpu.read dst := by
  obtain ⟨o, hsrc, hoperands⟩ := htakes
  have hsecond : op.operandAt 1 = o := by
    rw [Instruction.operandAt, hoperands]
    rfl
  unfold Instruction.sameRegister at h
  rw [operandAt_of_cons hoperands, hsecond] at h
  cases hsrc with
  | reg r => rw [of_inj (beq_iff_eq.mp h), Cpu.source]
  | _ => cases h

/-- The instructions that assign a value to their first operand and do nothing else. -/
def assignsFirst : Mnemonic → Bool
  | .xchg | .xadd | .cmp | .test | .imul => false
  | _ => true

theorem execute_assigns (h : assignsFirst op.mnemonic = true) (s : State) :
    s.execute image op left right = s.assign image op 0 (s.value image op left right) := by
  unfold State.execute
  revert h
  cases op.mnemonic <;> intro h <;> first | rfl | cases h

theorem execute_imul (hm : op.mnemonic = .imul) (hcount : 1 < op.opCount) (s : State) :
    s.execute image op left right = s.assign image op 0 (s.value image op left right) := by
  unfold State.execute
  rw [hm]
  exact if_pos hcount

/-- An instruction that assigns to its first operand ends with what it assigns and its flags. -/
theorem step_assigned {x : BitVec w} {flags : Flags} (h : Agrees A s cpu)
    (hright : right = if 1 < op.opCount then s.operand image op 1 else none)
    (hdst : op.operandAt 0 = .register (.of dst))
    (hassigns : ∀ s1 : State, s1.execute image op (s.operand image op 0) right =
      s1.assign image op 0 (s1.value image op (s.operand image op 0) right))
    (hkeep : op.rflagsModified = 0 → flags = cpu.flags)
    (hrebuilt : ∀ f, rebuiltFlags op (s.operand image op 0) right = some f → f = flags)
    (hvalue : ∀ s1 : State, Agrees A s1 (cpu.withFlags flags) →
      Represents (s1.value image op (s.operand image op 0) right) x) :
    Agrees A (s.step image op) ((cpu.write dst x).withFlags flags) := by
  have h1 := h.withRebuilt hkeep hrebuilt
  rw [State.step, ← hright, hassigns]
  exact h1.assigned hdst (hvalue _ h1)

theorem step_binary {operator : Binary} {src : Src w} (h : Agrees A s cpu) (hw : w ≤ A.bitness)
    (hm : op.mnemonic = binaryMnemonic operator) (htakes : TakesSrc op dst src)
    (hkeep : op.rflagsModified = 0 → operator.flags (cpu.read dst) (cpu.source src) = cpu.flags) :
    Agrees A (s.step image op)
      ((cpu.write dst (operator.value (cpu.read dst) (cpu.source src))).withFlags
        (operator.flags (cpu.read dst) (cpu.source src))) := by
  have h64 := le_of_reg dst
  obtain ⟨hdst, hcount, hleft, hright⟩ := htakes.operands image h hw hw
  have hoperator : flagsOperation op.mnemonic = some operator := by
    rw [hm]
    cases operator <;> rfl
  have hassigns : assignsFirst op.mnemonic = true := by
    rw [hm]
    cases operator <;> rfl
  refine step_assigned h (if_pos hcount).symm hdst (execute_assigns hassigns) hkeep
    (fun f => rebuiltFlags_right hdst hoperator hleft hright htakes.same) fun s1 _ => ?_
  unfold State.value
  rw [hm]
  cases operator with
  | add =>
    exact hleft.both hright fun p q hp hq => by
      rw [BitVec.setWidth_add _ _ h64, hp, hq]
      rfl
  | sub =>
    dsimp only [binaryMnemonic]
    split
    · rename_i hsame
      rw [htakes.same hsame, Binary.value, BitVec.sub_self]
      exact represents_some (BitVec.setWidth_zero _ _)
    · exact hleft.both hright fun p q hp hq => by
        rw [setWidth_sub h64, hp, hq]
        rfl
  | and =>
    dsimp only [binaryMnemonic]
    split
    · rename_i hzero
      have hsource := hright 0 hzero
      rw [Binary.value, ← hsource]
      exact represents_some (by simp)
    · exact hleft.both hright fun p q hp hq => by
        rw [BitVec.setWidth_and, hp, hq]
        rfl
  | or =>
    exact hleft.both hright fun p q hp hq => by
      rw [BitVec.setWidth_or, hp, hq]
      rfl
  | xor =>
    dsimp only [binaryMnemonic]
    split
    · rename_i hsame
      rw [htakes.same hsame, Binary.value, BitVec.xor_self]
      exact represents_some (BitVec.setWidth_zero _ _)
    · exact hleft.both hright fun p q hp hq => by
        rw [BitVec.setWidth_xor, hp, hq]
        rfl

/-- So does one whose flags are not rebuilt. -/
theorem step_quiet {x : BitVec w} (f : Flags) (h : Agrees A s cpu)
    (hright : right = if 1 < op.opCount then s.operand image op 1 else none)
    (hdst : op.operandAt 0 = .register (.of dst)) (hquiet : flagsOperation op.mnemonic = none)
    (hassigns : ∀ s1 : State, s1.execute image op (s.operand image op 0) right =
      s1.assign image op 0 (s1.value image op (s.operand image op 0) right))
    (hkeep : op.rflagsModified = 0 → f = cpu.flags)
    (hvalue : ∀ s1 : State, Agrees A s1 (cpu.withFlags f) →
      Represents (s1.value image op (s.operand image op 0) right) x) :
    Agrees A (s.step image op) ((cpu.write dst x).withFlags f) := by
  refine step_assigned h hright hdst hassigns hkeep (fun flags hflags => ?_) hvalue
  rw [rebuiltFlags_none hquiet] at hflags
  cases hflags

/-- And one that keeps the flags. -/
theorem step_plain {x : BitVec w} (h : Agrees A s cpu)
    (hright : right = if 1 < op.opCount then s.operand image op 1 else none)
    (hdst : op.operandAt 0 = .register (.of dst)) (hquiet : flagsOperation op.mnemonic = none)
    (hassigns : ∀ s1 : State, s1.execute image op (s.operand image op 0) right =
      s1.assign image op 0 (s1.value image op (s.operand image op 0) right))
    (hvalue : ∀ s1 : State, Agrees A s1 cpu →
      Represents (s1.value image op (s.operand image op 0) right) x) :
    Agrees A (s.step image op) (cpu.write dst x) :=
  step_quiet cpu.flags h hright hdst hquiet hassigns (fun _ => rfl) hvalue

theorem step_mov {src : Src w} (h : Agrees A s cpu) (hw : w ≤ A.bitness)
    (hm : op.mnemonic = .mov) (htakes : TakesSrc op dst src) :
    Agrees A (s.step image op) (cpu.write dst (cpu.source src)) := by
  obtain ⟨hdst, hcount, -, hright⟩ := htakes.operands image h hw hw
  refine step_plain h (if_pos hcount).symm hdst (by rw [hm]; rfl)
    (execute_assigns (by rw [hm]; rfl)) fun s1 _ => ?_
  unfold State.value
  rw [hm]
  exact hright

theorem Takes.second {src : Reg v} (htakes : Takes op dst src) :
    op.operandAt 1 = .register (.of src) := by
  rw [Instruction.operandAt, htakes]
  rfl

theorem step_movzx {src : Reg v} (h : Agrees A s cpu) (hw : w ≤ A.bitness) (hv : v ≤ A.bitness)
    (hm : op.mnemonic = .movzx) (htakes : Takes op dst src) :
    Agrees A (s.step image op) (cpu.write dst ((cpu.read src).setWidth w)) := by
  obtain ⟨hdst, hcount, -, -⟩ := htakes.takesSrc.operands image h hw hv
  refine step_plain h (if_pos hcount).symm hdst (by rw [hm]; rfl)
    (execute_assigns (by rw [hm]; rfl)) fun s1 _ => ?_
  unfold State.value
  rw [hm]
  intro p hp
  -- what is read of the source has no bits above its width
  rw [operand_register htakes.second] at hp
  rw [h.register hv hp, BitVec.setWidth_setWidth_of_le _ (le_of_reg dst)]

theorem step_movsx {src : Reg v} (h : Agrees A s cpu) (hw : w ≤ A.bitness) (hv : v ≤ A.bitness)
    (hm : op.mnemonic = .movsx ∨ op.mnemonic = .movsxd) (htakes : Takes op dst src) :
    Agrees A (s.step image op) (cpu.write dst ((cpu.read src).signExtend w)) := by
  obtain ⟨hdst, hcount, -, hright⟩ := htakes.takesSrc.operands image h hw hv
  have hbits : clampedBits (op.operandSize 1) = v := by
    rw [Instruction.operandSize, htakes.second]
    exact clampedBits_of src
  have hquiet : flagsOperation op.mnemonic = none := by
    obtain hm | hm := hm <;> rw [hm] <;> rfl
  have hassigns : assignsFirst op.mnemonic = true := by
    obtain hm | hm := hm <;> rw [hm] <;> rfl
  refine step_plain h (if_pos hcount).symm hdst hquiet (execute_assigns hassigns) fun s1 _ => ?_
  have hvalue : s1.value image op (s.operand image op 0) (s.operand image op 1) =
      (s.operand image op 1).map fun p : BitVec 64 => (p <<< (64 - v)).sshiftRight (64 - v) := by
    unfold State.value
    rw [hbits]
    obtain hm | hm := hm <;> rw [hm]
  rw [hvalue]
  exact hright.map fun p hp => by
    rw [shift_back (le_of_reg src), hp, setWidth_signExtend (le_of_reg dst)]
    rfl

theorem step_lea {a : X86.Address v} (h : Agrees A s cpu) (hv : v ≤ A.bitness)
    (hm : op.mnemonic = .lea) (hoperands : op.operands = [.register (.of dst), .memory])
    (hkind : v = 32 ∨ v = 64) (ha : AddressReported op.memory a) :
    Agrees A (s.step image op) (cpu.write dst ((cpu.effective a).setWidth w)) := by
  refine step_plain h rfl (operandAt_of_cons hoperands) (by rw [hm]; rfl)
    (execute_assigns (by rw [hm]; rfl)) fun s1 h1 => ?_
  unfold State.value
  rw [hm]
  intro p hp
  rw [h1.address hv hkind ha hp, BitVec.setWidth_setWidth_of_le _ (le_of_reg dst)]

/-- CMP and TEST set the flags of SUB and AND. -/
theorem step_compare {operator : Binary} {src : Src w} (h : Agrees A s cpu) (hw : w ≤ A.bitness)
    (hm : op.mnemonic = .cmp ∧ operator = .sub ∨ op.mnemonic = .test ∧ operator = .and)
    (htakes : TakesSrc op dst src)
    (hkeep : op.rflagsModified = 0 → operator.flags (cpu.read dst) (cpu.source src) = cpu.flags) :
    Agrees A (s.step image op)
      (cpu.withFlags (operator.flags (cpu.read dst) (cpu.source src))) := by
  obtain ⟨hdst, hcount, hleft, hright⟩ := htakes.operands image h hw hw
  have hoperator : flagsOperation op.mnemonic = some operator := by
    obtain ⟨hm, rfl⟩ | ⟨hm, rfl⟩ := hm <;> rw [hm] <;> rfl
  have h1 := h.withRebuilt hkeep fun f =>
    rebuiltFlags_right hdst hoperator hleft hright htakes.same
  have hexecute : ∀ s1 : State, s1.execute image op (s.operand image op 0)
      (s.operand image op 1) = s1 := by
    intro s1
    unfold State.execute
    obtain ⟨hm, -⟩ | ⟨hm, -⟩ := hm <;> rw [hm]
  rw [State.step, if_pos hcount, hexecute]
  exact h1

theorem step_unary {operator : Unary} (h : Agrees A s cpu) (hw : w ≤ A.bitness)
    (hm : op.mnemonic = unaryMnemonic operator) (hoperands : op.operands = [.register (.of dst)])
    (hkeep : op.rflagsModified = 0 → operator.flags (cpu.read dst) cpu.flags = cpu.flags) :
    Agrees A (s.step image op) ((cpu.write dst (operator.value (cpu.read dst))).withFlags
      (operator.flags (cpu.read dst) cpu.flags)) := by
  have hdst := operandAt_of_cons hoperands
  have h64 := le_of_reg dst
  have hleft : Represents (s.operand image op 0) (cpu.source (.reg dst)) :=
    h.source hw (.reg dst) hdst
  have hone : (1 : BitVec 64).setWidth w = 1 := BitVec.setWidth_ofNat_of_le h64 1
  have hassigns : assignsFirst op.mnemonic = true := by
    rw [hm]
    cases operator <;> rfl
  refine step_quiet _ h rfl hdst (by rw [hm]; cases operator <;> rfl) (execute_assigns hassigns)
    hkeep fun s1 _ => ?_
  unfold State.value
  rw [hm]
  cases operator with
  | inc =>
    exact hleft.map fun p hp => by
      rw [BitVec.setWidth_add _ _ h64, hp, hone]
      rfl
  | dec =>
    exact hleft.map fun p hp => by
      rw [setWidth_sub h64, hp, hone]
      rfl
  | neg =>
    exact hleft.map fun p hp => by
      rw [BitVec.setWidth_neg_of_le h64, hp]
      rfl
  | not =>
    exact hleft.map fun p hp => by
      rw [BitVec.setWidth_not h64, hp]
      rfl

theorem count_right (p : BitVec 64) :
    (p &&& if w = 64 then 63 else 31).toNat = shiftCount w (p.setWidth 8) := by
  have hlow : (p.setWidth 8).toNat = p.toNat % 256 := BitVec.toNat_setWidth ..
  unfold shiftCount
  rw [hlow]
  by_cases hw : w = 64
  · have hand : (p &&& 63).toNat = p.toNat % 64 := by
      rw [BitVec.toNat_and]
      exact Nat.and_two_pow_sub_one_eq_mod _ 6
    rw [if_pos hw, if_pos hw, hand]
    omega
  · have hand : (p &&& 31).toNat = p.toNat % 32 := by
      rw [BitVec.toNat_and]
      exact Nat.and_two_pow_sub_one_eq_mod _ 5
    rw [if_neg hw, if_neg hw, hand]
    omega

theorem shiftValue_right (r : Reg w) {operator : Shift} {mnemonic : Mnemonic}
    (hm : isShiftMnemonic mnemonic operator) (p q : BitVec 64) :
    (shiftValue mnemonic (Register.of r).size p q).setWidth w =
      operator.value (p.setWidth w) (shiftCount w (q.setWidth 8)) := by
  have h64 := le_of_reg r
  unfold shiftValue
  dsimp only
  rw [clampedBits_of, count_right]
  generalize shiftCount w (q.setWidth 8) = n
  cases operator with
  | shl =>
    obtain rfl | rfl := hm
    all_goals exact BitVec.setWidth_shiftLeft_of_le h64
  | shr =>
    obtain rfl := hm
    rw [and_mask (size_of r), setWidth_ushiftRight_setWidth _ h64]
    rfl
  | sar =>
    obtain rfl := hm
    rw [shift_back h64, setWidth_sshiftRight_signExtend h64]
    rfl

theorem step_shift {operator : Shift} {count : Src 8} (undef : Flags) (h : Agrees A s cpu)
    (hw : w ≤ A.bitness) (hm : isShiftMnemonic op.mnemonic operator)
    (htakes : TakesSrc op dst count)
    (hkeep : op.rflagsModified = 0 →
      operator.flags (cpu.read dst) (shiftCount w (cpu.source count)) undef cpu.flags = cpu.flags) :
    Agrees A (s.step image op)
      ((cpu.write dst (operator.value (cpu.read dst) (shiftCount w (cpu.source count)))).withFlags
        (operator.flags (cpu.read dst) (shiftCount w (cpu.source count)) undef cpu.flags)) := by
  have h8 : 8 ≤ A.bitness := by
    have hbits := bitness_cases A
    omega
  obtain ⟨hdst, hcount, hleft, hright⟩ := htakes.operands image h hw h8
  have hsize : op.operandSize 0 = (Register.of dst).size := by rw [Instruction.operandSize, hdst]
  have hkinds : op.mnemonic = .shl ∨ op.mnemonic = .sal ∨ op.mnemonic = .shr ∨
      op.mnemonic = .sar := by
    cases operator with
    | shl => exact hm.elim Or.inl fun h => Or.inr (Or.inl h)
    | shr => exact Or.inr (Or.inr (Or.inl hm))
    | sar => exact Or.inr (Or.inr (Or.inr hm))
  have hquiet : flagsOperation op.mnemonic = none ∧ assignsFirst op.mnemonic = true := by
    obtain hk | hk | hk | hk := hkinds <;> rw [hk] <;> exact ⟨rfl, rfl⟩
  refine step_quiet _ h (if_pos hcount).symm hdst hquiet.1 (execute_assigns hquiet.2) hkeep
    fun s1 _ => ?_
  have hvalue : s1.value image op (s.operand image op 0) (s.operand image op 1) =
      (zip (s.operand image op 0) (s.operand image op 1)).map fun both =>
        shiftValue op.mnemonic (Register.of dst).size both.1 both.2 := by
    unfold State.value
    rw [hsize]
    obtain hk | hk | hk | hk := hkinds <;> rw [hk]
  rw [hvalue]
  exact hleft.both hright fun p q hp hq => by rw [shiftValue_right dst hm, hp, hq]

theorem step_imul {src : Reg w} (undef : Flags) (h : Agrees A s cpu) (hw : w ≤ A.bitness)
    (hm : op.mnemonic = .imul) (htakes : Takes op dst src)
    (hkeep : op.rflagsModified = 0 →
      mulFlags (cpu.read dst) (cpu.read src) undef = cpu.flags) :
    Agrees A (s.step image op) ((cpu.write dst (cpu.read dst * cpu.read src)).withFlags
      (mulFlags (cpu.read dst) (cpu.read src) undef)) := by
  obtain ⟨hdst, hcount, hleft, hright⟩ := htakes.takesSrc.operands image h hw hw
  have htwo : ¬op.opCount = 3 := by
    simp [Instruction.opCount, show op.operands = _ from htakes]
  refine step_quiet _ h (if_pos hcount).symm hdst (by rw [hm]; rfl) (execute_imul hm hcount)
    hkeep fun s1 _ => ?_
  unfold State.value
  rw [hm]
  dsimp only
  rw [if_neg htwo]
  exact hleft.both hright fun p q hp hq => by
    rw [BitVec.setWidth_mul _ _ (le_of_reg dst), hp, hq]
    rfl

theorem step_imulImm {src : Reg w} {imm : BitVec w} {o : Operand} (undef : Flags)
    (h : Agrees A s cpu) (hw : w ≤ A.bitness) (hm : op.mnemonic = .imul)
    (himm : SrcReported (.imm imm) o)
    (hoperands : op.operands = [.register (.of dst), .register (.of src), o])
    (hkeep : op.rflagsModified = 0 → mulFlags (cpu.read src) imm undef = cpu.flags) :
    Agrees A (s.step image op) ((cpu.write dst (cpu.read src * imm)).withFlags
      (mulFlags (cpu.read src) imm undef)) := by
  have hthree : op.opCount = 3 := by
    rw [Instruction.opCount, hoperands]
    rfl
  have hcount : 1 < op.opCount := by omega
  have hsecond : op.operandAt 1 = .register (.of src) := by
    rw [Instruction.operandAt, hoperands]
    rfl
  have hthird : op.operandAt 2 = o := by
    rw [Instruction.operandAt, hoperands]
    rfl
  have hright : Represents (s.operand image op 1) (cpu.source (.reg src)) :=
    h.source hw (.reg src) hsecond
  refine step_quiet _ h (if_pos hcount).symm (operandAt_of_cons hoperands) (by rw [hm]; rfl)
    (execute_imul hm hcount) hkeep fun s1 h1 => ?_
  unfold State.value
  rw [hm]
  dsimp only
  rw [if_pos hthree]
  exact hright.both (h1.source hw himm hthird) fun p q hp hq => by
    rw [BitVec.setWidth_mul _ _ (le_of_reg dst), hp, hq]
    rfl

theorem step_xchg {src : Reg w} (h : Agrees A s cpu) (hw : w ≤ A.bitness)
    (hm : op.mnemonic = .xchg) (htakes : Takes op dst src) :
    Agrees A (s.step image op) ((cpu.write dst (cpu.read src)).write src (cpu.read dst)) := by
  obtain ⟨hdst, hcount, hleft, hright⟩ := htakes.takesSrc.operands image h hw hw
  have h1 := h.withQuiet (s.operand image op 0) (s.operand image op 1) (by rw [hm]; rfl)
    fun _ => rfl
  rw [State.step, if_pos hcount]
  unfold State.execute
  rw [hm]
  exact (h1.assigned hdst hright).assigned htakes.second hleft

theorem step_xadd {src : Reg w} (h : Agrees A s cpu) (hw : w ≤ A.bitness)
    (hm : op.mnemonic = .xadd) (htakes : Takes op dst src)
    (hkeep : op.rflagsModified = 0 → Binary.add.flags (cpu.read dst) (cpu.read src) = cpu.flags) :
    Agrees A (s.step image op)
      (((cpu.write src (cpu.read dst)).write dst (cpu.read dst + cpu.read src)).withFlags
        (Binary.add.flags (cpu.read dst) (cpu.read src))) := by
  obtain ⟨hdst, hcount, hleft, hright⟩ := htakes.takesSrc.operands image h hw hw
  have h1 := h.withQuiet (s.operand image op 0) (s.operand image op 1) (by rw [hm]; rfl) hkeep
  have hsum : Represents ((zip (s.operand image op 0) (s.operand image op 1)).map
      fun both => both.1 + both.2) (cpu.read dst + cpu.read src) :=
    hleft.both hright fun p q hp hq => by
      rw [BitVec.setWidth_add _ _ (le_of_reg dst), hp, hq]
      rfl
  rw [State.step, if_pos hcount]
  unfold State.execute
  rw [hm]
  dsimp only
  rw [hdst]
  exact (h1.assigned htakes.second hleft).assigned hdst hsum

theorem condition_right (f : Flags) (c : Condition) : condition f (some c) = some (c.holds f) := by
  rcases f with ⟨zero, sign, carry, overflow, parity⟩
  cases c <;> simp [condition, Condition.holds] <;>
    cases zero <;> cases sign <;> cases overflow <;> rfl

/-- A condition that is known is the processor's. -/
theorem Agrees.condition {c : Condition} {holds : Bool} (h : Agrees A s cpu)
    (hcondition : op.conditionCode = some c)
    (hholds : (s.flags.bind fun f => Emucode.condition f op.conditionCode) = some holds) :
    holds = c.holds cpu.flags := by
  obtain ⟨f, hf, hc⟩ := Option.bind_eq_some_iff.mp hholds
  rw [hcondition, condition_right, h.flags f hf] at hc
  exact (Option.some.inj hc).symm

theorem step_setcc {c : Condition} {r : Reg 8} (h : Agrees A s cpu) (hm : op.mnemonic = .setcc)
    (hcondition : op.conditionCode = some c) (hoperands : op.operands = [.register (.of r)]) :
    Agrees A (s.step image op) (cpu.write r (if c.holds cpu.flags then 1 else 0)) := by
  refine step_plain h rfl (operandAt_of_cons hoperands) (by rw [hm]; rfl)
    (execute_assigns (by rw [hm]; rfl)) fun s1 h1 => ?_
  unfold State.value
  rw [hm]
  intro p hp
  obtain ⟨holds, hholds, rfl⟩ := Option.map_eq_some_iff.mp hp
  rw [h1.condition hcondition hholds]
  show (if c.holds cpu.flags then (1 : BitVec 64) else 0).setWidth 8 = _
  cases c.holds cpu.flags <;> rfl

theorem step_cmovcc {c : Condition} {src : Reg w} (h : Agrees A s cpu) (hw : w ≤ A.bitness)
    (hm : op.mnemonic = .cmovcc) (hcondition : op.conditionCode = some c)
    (htakes : Takes op dst src) :
    Agrees A (s.step image op)
      (cpu.write dst (if c.holds cpu.flags then cpu.read src else cpu.read dst)) := by
  obtain ⟨hdst, hcount, hleft, hright⟩ := htakes.takesSrc.operands image h hw hw
  refine step_plain h (if_pos hcount).symm hdst (by rw [hm]; rfl)
    (execute_assigns (by rw [hm]; rfl)) fun s1 h1 => ?_
  unfold State.value
  rw [hm]
  dsimp only
  split
  · rename_i hholds
    rw [← h1.condition hcondition hholds]
    exact hright
  · rename_i hholds
    rw [← h1.condition hcondition hholds]
    exact hleft
  · -- both operands are known to be the same, or neither is known
    split
    · rename_i hsame
      intro p hp
      cases c.holds cpu.flags with
      | true => exact hright p (hsame ▸ hp)
      | false => exact hleft p hp
    · intro p hp
      cases hp

end

/-! ## Soundness -/

section

variable {A : Architecture} {image : Image A} {op : Instruction} {i : Instr} {s : State} {cpu : Cpu}

theorem step_agrees (undef : Flags) (hreported : Reported A op i) (h : Agrees A s cpu) :
    Agrees A (s.step image op) (exec undef cpu i) := by
  obtain ⟨hoperands, hflags, hfits⟩ := hreported
  have hkeep := fun h0 => hflags h0 undef cpu
  cases i with
  | mov dst src => exact step_mov h hfits hoperands.1 hoperands.2
  | movzx dst src => exact step_movzx h hfits.1 hfits.2 hoperands.1 hoperands.2
  | movsx dst src => exact step_movsx h hfits.1 hfits.2 hoperands.1 hoperands.2
  | lea dst address =>
    obtain ⟨hm, hops, hkind, haddress⟩ := hoperands
    exact step_lea h hfits.2 hm hops hkind haddress
  | binary operator dst src => exact step_binary h hfits hoperands.1 hoperands.2 hkeep
  | cmp dst src => exact step_compare h hfits (Or.inl ⟨hoperands.1, rfl⟩) hoperands.2 hkeep
  | test dst src => exact step_compare h hfits (Or.inr ⟨hoperands.1, rfl⟩) hoperands.2 hkeep
  | unary operator dst => exact step_unary h hfits hoperands.1 hoperands.2 hkeep
  | shift operator dst count => exact step_shift undef h hfits hoperands.1 hoperands.2 hkeep
  | imul dst src => exact step_imul undef h hfits hoperands.1 hoperands.2 hkeep
  | imulImm dst src imm =>
    obtain ⟨hm, o, himm, hops⟩ := hoperands
    exact step_imulImm undef h hfits hm himm hops hkeep
  | xchg dst src => exact step_xchg h hfits hoperands.1 hoperands.2
  | xadd dst src => exact step_xadd h hfits hoperands.1 hoperands.2 hkeep
  | setcc c dst => exact step_setcc h hoperands.1 hoperands.2.1 hoperands.2.2
  | cmovcc c dst src => exact step_cmovcc h hfits hoperands.1 hoperands.2.1 hoperands.2.2

end

/-- A step keeps the agreement: what is then read of a register, whatever its width, is what the
    processor has there, and known flags are the processor's. -/
theorem step_sound {A : Architecture} (image : Image A) (op : Instruction) (i : Instr)
    (undef : Flags) (s : State) (cpu : Cpu) (hreported : Reported A op i) (h : Agrees A s cpu) :
    (∀ (w : Nat) (r : Reg w) (v : BitVec 64), w ≤ A.bitness →
        (s.step image op).register (.of r) = some v →
        v = ((exec undef cpu i).read r).setWidth 64) ∧
      (∀ flags, (s.step image op).flags = some flags → flags = (exec undef cpu i).flags) ∧
      Agrees A (s.step image op) (exec undef cpu i) := by
  have hagrees : Agrees A (s.step image op) (exec undef cpu i) := step_agrees undef hreported h
  exact ⟨fun w r v hw hv => hagrees.register hw hv, hagrees.flags, hagrees⟩

/-- `xchg ah, al` -/
def xchgHighLow : Instruction where
  mnemonic := .xchg
  operands := [.register (.high 0), .register (.low 0)]
  memory := ⟨.ds, none, .none, .none, 1, 0⟩
  memorySize := 0
  conditionCode := none
  rflagsModified := 0

/-- AX is known. -/
def knownWord : State := ⟨(∅ : OrdMap Nat _).upsert 0 fun _ => (0x1234, 0xffff), ∅, none⟩

def noFlags : Flags := ⟨false, false, false, false, false⟩

def wordCpu : Cpu := ⟨fun _ => 0x55551234, noFlags⟩

theorem agrees_knownWord : Agrees .x64 knownWord wordCpu := by
  refine ⟨fun n value known hget => ?_, fun flags hflags => by cases hflags⟩
  have hbits : ∀ i < 64, (0xffff#64).getLsbD i = true →
      (0x1234#64).getLsbD i = (0x55551234#64).getLsbD i := by decide
  rw [knownWord, OrdMap.get?_upsert] at hget
  split at hget
  · obtain ⟨rfl, rfl⟩ := Prod.mk.inj (Option.some.inj hget)
    exact hbits
  · cases hget

theorem step_sound_xchg : (0x34 : BitVec 64) =
    ((exec noFlags wordCpu (.xchg (.high 0) (.low 0))).read (.high 0)).setWidth 64 :=
  (step_sound (⟨⟨[], ∅, [], [], fun _ => .error ""⟩, ∅⟩ : Image .x64) xchgHighLow
    (.xchg (.high 0) (.low 0)) noFlags knownWord wordCpu
    ⟨⟨rfl, rfl⟩, fun _ _ _ => rfl, (by decide : 8 ≤ 64)⟩ agrees_knownWord).1 8 (.high 0) _
    (by decide) (by decide +kernel)

end CapaX.Emucode
