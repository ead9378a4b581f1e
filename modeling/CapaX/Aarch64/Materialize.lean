import CapaX.Aarch64.Operands
import CapaX.Collections.OrdMap
import CapaX.Recovery.PltStub

/-
  Address materialization (`materialize_addresses` in `aarch64/features.rs`): the addresses that
  ADRP chains come to within a block. Registers that hold a known address are tracked through ADD
  and through LDR, the base of which a load may write back; the table does not follow that
  (`Drift`), and it takes a post-indexed load for a pre-indexed one.
-/

namespace CapaX.Aarch64

open A64 Collections Text

/-- `disarm64::InsnClass`, as far as its operands are formatted. -/
inductive InsnClass
  | pcRelAddr | addSubImm | logImm | logShift | ldstPos | ldstImm9 | loadLit | ldstPairOff
  | ldstPairIndexed | moveWide
  | other (name : String)
  deriving DecidableEq

def isFormattable : InsnClass → Bool
  | .other _ => false
  | _ => true

/-- `disarm64::Opcode`: the class and mnemonic of its definition, and `display_at`. -/
structure Opcode where
  insnClass : InsnClass
  mnemonic : String
  displayAt : UInt64 → List Char

def operandText (opcode : Opcode) (pc : UInt64) : List Char :=
  match splitOnce ['\t', '\t'] (opcode.displayAt pc) with
  | some (_, rest) => rest
  | none => []

/-- An instruction word of a block at its address. -/
structure Insn where
  address : UInt64
  word : Word

/-- `known` and `out`. -/
structure Tables where
  known : OrdMap Nat UInt64
  out : OrdMap UInt64 UInt64

namespace Tables

def empty : Tables := ⟨∅, ∅⟩

def know (tables : Tables) (r : Nat) (value : UInt64) : Tables :=
  { tables with known := tables.known.upsert r fun _ => value }

def forget (tables : Tables) (r : Nat) : Tables := { tables with known := tables.known.erase r }

def record (tables : Tables) (address value : UInt64) : Tables :=
  { tables with out := tables.out.upsert address fun _ => value }

end Tables

section

variable (disarm : Word → Option Opcode)

def tryMaterializeStep (insn : Insn) (tables : Tables) : Option Tables := do
  let opcode ← disarm insn.word
  if !isFormattable opcode.insnClass then none
  else
    let parts := splitOperands (operandText opcode insn.address)
    match opcode.insnClass with
    | .pcRelAddr =>
      if opcode.mnemonic = "adrp" then do
        let rd ← parts[0]?.bind regNum
        let page ← parts[1]?.bind parseBareHex
        some (tables.know rd page)
      else none
    | .addSubImm =>
      if opcode.mnemonic = "add" ∧ parts.length = 3 then do
        let rd ← parts[0]?.bind regNum
        let rn ← parts[1]?.bind regNum
        let imm ← parts[2]?.bind parseHashImm
        let base ← tables.known.get? rn
        let value := base + UInt64.ofInt imm
        some ((tables.know rd value).record insn.address value)
      else none
    | .ldstPos | .ldstImm9 =>
      if opcode.mnemonic = "ldr" ∧ parts.length = 2 then do
        let rt ← parts[0]?.bind regNum
        let (baseReg, imm) ← parts[1]?.bind parseBracketAny
        let rn ← regNum baseReg
        let base ← tables.known.get? rn
        some ((tables.record insn.address (base + UInt64.ofInt imm)).forget rt)
      else none
    | .loadLit =>
      if opcode.mnemonic = "ldr" then do
        let rt ← parts[0]?.bind regNum
        let address ← parts[1]?.bind parseBareHex
        some ((tables.record insn.address address).forget rt)
      else none
    | _ => none

/-- What is not recognized clears the known registers. -/
def materializeStep (tables : Tables) (insn : Insn) : Tables :=
  (tryMaterializeStep disarm insn tables).getD { tables with known := ∅ }

def materialize (block : List Insn) : Tables := block.foldl (materializeStep disarm) .empty

def materializeAddresses (block : List Insn) : OrdMap UInt64 UInt64 := (materialize disarm block).out

end

/-! ## Execution -/

/-- What the memory holds, and what other instructions do. -/
structure Machine where
  load : Load → BitVec 64 → State → BitVec 64
  other : Word → State → State

namespace Machine

variable (M : Machine)

def exec (insn : Insn) (s : State) : State :=
  match decode insn.word with
  | some (.addSubImm wide sub setFlags imm rn rd) => execAddSubImm wide sub setFlags imm rn rd s
  | some (.adrp offset rd) => s.writeZ rd ((insn.address.toBitVec &&& ~~~0xfff#64) + offset)
  | _ =>
    match decodeLdr insn.word with
    | some l => l.exec (M.load l (l.address insn.address.toBitVec s) s) s
    | none => M.other insn.word s

def run (block : List Insn) (s : State) : State := block.foldl (fun s insn => M.exec insn s) s

end Machine

/-- The result of a 64-bit ADD, or the address of an LDR. -/
def computed (insn : Insn) (s : State) : Option (BitVec 64) :=
  match decode insn.word with
  | some (.addSubImm true false _ imm rn _) => some (addSub false (s.reg rn) (imm.setWidth 64)).1
  | _ => (decodeLdr insn.word).map fun l => l.address insn.address.toBitVec s

/-- Every address in the map is that of an instruction which computes the value, from any state. -/
def MaterializeSound (disarm : Word → Option Opcode) (block : List Insn) : Prop :=
  ∀ a v, (materializeAddresses disarm block).get? a = some v →
    ∃ before insn after, block = before ++ insn :: after ∧ insn.address = a ∧
      ∀ (M : Machine) (s : State), computed insn (M.run before s) = some v.toBitVec

/-! ## The standard syntax -/

/-- The immediate of an ADD, with its shift where it has one. -/
inductive AddText (imm : BitVec 24) : Bool → List Char → Prop
  | plain {t : List Char} (h : Printed imm.toNat t) : AddText imm false ('#' :: t)
  | shifted {t amount : List Char} (h : Printed (imm.toNat / 4096 : Nat) t)
    (hamount : Printed 12 amount) :
    AddText imm true ('#' :: t ++ (comma ++ (['l', 's', 'l', ' ', '#'] ++ amount)))

/-- The address of an LDR with a base: `[xN]`, `[xN, #imm]`, `[xN, #imm]!` or `[xN], #imm`. -/
inductive LoadText (l : Load) : List Char → Prop
  | bare (h : l.mode = .unsignedOffset 0) :
    LoadText l ('[' :: (generalName true true l.rn ++ [']']))
  | offset {imm : BitVec 64} {t : List Char} (h : l.mode = .unsignedOffset imm)
    (ht : Printed imm.toInt t) :
    LoadText l ('[' :: ((generalName true true l.rn ++ ([',', ' ', '#'] ++ t)) ++ [']']))
  | pre {imm : BitVec 64} {t : List Char} (h : l.mode = .preIndexed imm)
    (ht : Printed imm.toInt t) :
    LoadText l ('[' :: ((generalName true true l.rn ++ ([',', ' ', '#'] ++ t)) ++ [']', '!']))
  | post {imm : BitVec 64} {t : List Char} (h : l.mode = .postIndexed imm)
    (ht : Printed imm.toInt t) :
    LoadText l ('[' :: (generalName true true l.rn ++ ([']', ',', ' ', '#'] ++ t)))

/-- The disassembler prints what it names ADRP, ADD or LDR in the standard syntax. -/
structure StandardSyntax (disarm : Word → Option Opcode) : Prop where
  adrp : ∀ w op, disarm w = some op → op.insnClass = .pcRelAddr → op.mnemonic = "adrp" →
    ∃ offset rd, decode w = some (.adrp offset rd) ∧ ∀ pc : UInt64,
      op.displayAt pc = "adrp".toList ++ (['\t', '\t'] ++ (generalName true false rd ++ (comma ++
        addressText (UInt64.ofBitVec ((pc.toBitVec &&& ~~~0xfff#64) + offset)))))
  add : ∀ w op, disarm w = some op → op.insnClass = .addSubImm → op.mnemonic = "add" →
    ∃ wide imm rn rd, decode w = some (.addSubImm wide false false imm rn rd) ∧ ∀ pc : UInt64,
      ∃ t, AddText imm (w.getLsbD 22) t ∧
        op.displayAt pc = "add".toList ++ (['\t', '\t'] ++ (generalName wide true rd ++ (comma ++
          (generalName wide true rn ++ (comma ++ t)))))
  load : ∀ w op, disarm w = some op → op.insnClass = .ldstPos ∨ op.insnClass = .ldstImm9 →
    op.mnemonic = "ldr" → ∃ l, decodeLdr w = some l ∧ ∀ pc : UInt64,
      ∃ t, LoadText l t ∧
        op.displayAt pc = "ldr".toList ++ (['\t', '\t'] ++ (loadName l ++ (comma ++ t)))
  literal : ∀ w op, disarm w = some op → op.insnClass = .loadLit → op.mnemonic = "ldr" →
    ∃ l offset, decodeLdr w = some l ∧ l.mode = .literal offset ∧ ∀ pc : UInt64,
      op.displayAt pc = "ldr".toList ++ (['\t', '\t'] ++ (loadName l ++ (comma ++
        addressText (UInt64.ofBitVec (pc.toBitVec + offset)))))

/-! ## Drift -/

/-- The forms that are tracked, with the registers they are about. -/
inductive Form
  | adrp (rd : Reg)
  | add (rn rd : Reg)
  | load (rn rt : Reg) (mode : Addressing)
  | literal (rt : Reg)
  | other
  deriving DecidableEq

/-- What is tracked of a word: by the names the disassembler gives, an ADRP, a 64-bit ADD without a
    shift, a 64-bit load with a base, and one without, none of them with register 31. -/
def form (disarm : Word → Option Opcode) (w : Word) : Form :=
  match disarm w with
  | none => .other
  | some op =>
    if op.insnClass = .pcRelAddr ∧ op.mnemonic = "adrp" then
      match decode w with
      | some (.adrp _ rd) => if rd = 31#5 then .other else .adrp rd
      | _ => .other
    else if op.insnClass = .addSubImm ∧ op.mnemonic = "add" then
      match decode w with
      | some (.addSubImm wide _ _ _ rn rd) =>
        if wide = false ∨ w.getLsbD 22 = true ∨ rn = 31#5 ∨ rd = 31#5 then .other else .add rn rd
      | _ => .other
    else if (op.insnClass = .ldstPos ∨ op.insnClass = .ldstImm9) ∧ op.mnemonic = "ldr" then
      match decodeLdr w with
      | some l =>
        if l.simd = true ∨ l.size ≠ 3 ∨ l.rn = 31#5 ∨ l.rt = 31#5 then .other
        else .load l.rn l.rt l.mode
      | none => .other
    else if op.insnClass = .loadLit ∧ op.mnemonic = "ldr" then
      match decodeLdr w with
      | some l => if l.simd = true ∨ l.size ≠ 3 ∨ l.rt = 31#5 then .other else .literal l.rt
      | none => .other
    else .other

/-- How far each tracked register has gone from the address its chain stands for. -/
abbrev Drift := Reg → Option (BitVec 64)

def Drift.step (d : Drift) : Form → Drift
  | .adrp rd => Function.update d rd (some 0)
  | .add rn rd =>
    match d rn with
    | some e => Function.update d rd (some e)
    | none => fun _ => none
  | .load rn rt mode =>
    match d rn with
    | some e => Function.update (Function.update d rn (some (e + mode.writeBack))) rt none
    | none => fun _ => none
  | .literal rt => Function.update d rt none
  | .other => fun _ => none

/-- The drift of a block: loads that write back move their base. -/
def drift (disarm : Word → Option Opcode) (block : List Insn) : Drift :=
  block.foldl (fun d insn => d.step (form disarm insn.word)) fun _ => none

/-- A tracked base has not drifted; that of a post-indexed load has by its offset. -/
def Drift.Fits (d : Drift) : Form → Prop
  | .add rn _ => ∀ e, d rn = some e → e = 0
  | .load rn _ mode => ∀ e, d rn = some e →
    e = match mode with
      | .postIndexed imm => imm
      | _ => 0
  | .adrp _ | .literal _ | .other => True

def Settled (disarm : Word → Option Opcode) (block : List Insn) : Prop :=
  ∀ before insn after, block = before ++ insn :: after →
    (drift disarm before).Fits (form disarm insn.word)

/-! ## One step -/

theorem toBitVec_ofInt_toInt (imm : BitVec 64) : (UInt64.ofInt imm.toInt).toBitVec = imm := by
  rw [CapaX.Recovery.toBitVec_ofInt, BitVec.ofInt_toInt]

section

variable {disarm : Word → Option Opcode} {insn : Insn} {tables : Tables} {opcode : Opcode}

theorem operandText_eq {mnemonic operands : List Char} {pc : UInt64} (h : '\t' ∉ mnemonic)
    (hdisplay : opcode.displayAt pc = mnemonic ++ (['\t', '\t'] ++ operands)) :
    operandText opcode pc = operands := by
  rw [operandText, hdisplay, splitOnce_self h]

/-- A step by its form: what is known after it, and the value it records. -/
inductive Steps (insn : Insn) (known : OrdMap Nat UInt64) :
    Form → Option (OrdMap Nat UInt64 × Option UInt64) → Prop
  | adrp {offset : BitVec 64} {rd : Reg} (hdecode : decode insn.word = some (.adrp offset rd))
    (hrd : rd ≠ 31#5) :
    Steps insn known (.adrp rd) (some (known.upsert rd.toNat fun _ =>
      UInt64.ofBitVec ((insn.address.toBitVec &&& ~~~0xfff#64) + offset), none))
  | add {imm : BitVec 24} {rn rd : Reg}
    (hdecode : decode insn.word = some (.addSubImm true false false imm rn rd)) (hrn : rn ≠ 31#5)
    (hrd : rd ≠ 31#5) :
    Steps insn known (.add rn rd) ((known.get? rn.toNat).map fun base =>
      (known.upsert rd.toNat fun _ => base + UInt64.ofInt imm.toNat,
        some (base + UInt64.ofInt imm.toNat)))
  | load {l : Load} {imm : BitVec 64} (hdecode : decodeLdr insn.word = some l)
    (hgeneral : l.simd = false) (hrn : l.rn ≠ 31#5) (hrt : l.rt ≠ 31#5)
    (hmode : l.mode = .unsignedOffset imm ∨ l.mode = .preIndexed imm ∨ l.mode = .postIndexed imm) :
    Steps insn known (.load l.rn l.rt l.mode) ((known.get? l.rn.toNat).map fun base =>
      (known.erase l.rt.toNat, some (base + UInt64.ofInt imm.toInt)))
  | literal {l : Load} {offset : BitVec 64} (hdecode : decodeLdr insn.word = some l)
    (hgeneral : l.simd = false) (hrt : l.rt ≠ 31#5) (hmode : l.mode = .literal offset) :
    Steps insn known (.literal l.rt)
      (some (known.erase l.rt.toNat, some (UInt64.ofBitVec (insn.address.toBitVec + offset))))
  | other : Steps insn known .other none

def Tables.put (tables : Tables) (insn : Insn) (r : OrdMap Nat UInt64 × Option UInt64) : Tables :=
  ⟨r.1, match r.2 with
    | some v => tables.out.upsert insn.address fun _ => v
    | none => tables.out⟩

/-- A step ends with the tables that its form says. -/
def StepsTo (insn : Insn) (tables : Tables) (f : Form) (t : Option Tables) : Prop :=
  ∃ r, Steps insn tables.known f r ∧ t = r.map (tables.put insn)

theorem stepsTo_other : StepsTo insn tables .other none := ⟨none, .other, rfl⟩

theorem size_of_loadSize {simd : Bool} {size opc : BitVec 2} {n : Nat}
    (h : loadSize simd size opc = some n) : n ≤ 4 := by
  have hall : ∀ (simd : Bool) (size opc : BitVec 2), ∀ n ∈ loadSize simd size opc, n ≤ 4 := by
    decide
  exact hall simd size opc n h

/-- The offsets of loads are small. -/
theorem small_of_decodeLdr {w : Word} {l : Load} {imm : BitVec 64} (h : decodeLdr w = some l)
    (hmode : l.mode = .unsignedOffset imm ∨ l.mode = .preIndexed imm ∨ l.mode = .postIndexed imm) :
    imm.toInt.natAbs < 2 ^ 63 := by
  have hindexed : ∀ x : BitVec 9, (x.signExtend 64).toInt.natAbs < 2 ^ 63 := by decide +kernel
  have hunsigned : ∀ (x : BitVec 12) (size : Nat), size ≤ 4 →
      ((x.setWidth 64) <<< size).toInt.natAbs < 2 ^ 63 := by
    intro x size hsize
    have hx := x.isLt
    have hpow : 2 ^ size ≤ 2 ^ 4 := Nat.pow_le_pow_right (by decide) hsize
    have hprod : x.toNat * 2 ^ size < 4096 * 16 := by
      calc x.toNat * 2 ^ size ≤ x.toNat * 16 := Nat.mul_le_mul_left _ hpow
        _ < 4096 * 16 := by omega
    have hnat : ((x.setWidth 64) <<< size).toNat = x.toNat * 2 ^ size := by
      have hwide : x.toNat % 2 ^ 64 = x.toNat := Nat.mod_eq_of_lt (by omega)
      rw [BitVec.toNat_shiftLeft, BitVec.toNat_setWidth, hwide, Nat.shiftLeft_eq,
        Nat.mod_eq_of_lt (by omega)]
    rw [BitVec.toInt_eq_toNat_of_lt (by omega), hnat]
    omega
  obtain ⟨-, size, mode, hsize, hbase, rfl⟩ | ⟨-, offset, hliteral⟩ := decodeLdr_cases h
  · dsimp only at hmode
    obtain ⟨-, rfl⟩ | rfl | rfl | ⟨rm, option, shift, rfl⟩ := baseMode_cases hbase
    · obtain hmode | hmode | hmode := hmode
      · obtain rfl := Addressing.unsignedOffset.inj hmode
        exact hunsigned _ size (size_of_loadSize hsize)
      · cases hmode
      · cases hmode
    · obtain hmode | hmode | hmode := hmode
      · cases hmode
      · cases hmode
      · obtain rfl := Addressing.postIndexed.inj hmode
        exact hindexed _
    · obtain hmode | hmode | hmode := hmode
      · cases hmode
      · obtain rfl := Addressing.preIndexed.inj hmode
        exact hindexed _
      · cases hmode
    · simp at hmode
  · simp [hliteral] at hmode

/-- The base and the offset are read off the address of a load. -/
theorem LoadText.parse {w : Word} {l : Load} {t : List Char} (hdecode : decodeLdr w = some l)
    (h : LoadText l t) : ∃ imm, (l.mode = .unsignedOffset imm ∨ l.mode = .preIndexed imm ∨
      l.mode = .postIndexed imm) ∧
      parseBracketAny t = some (generalName true true l.rn, imm.toInt) := by
  obtain ⟨hcomma, -, hclose, -, -⟩ := generalName_chars true true l.rn
  cases h with
  | bare hmode => exact ⟨0, Or.inl hmode, parseBracketAny_bare hcomma hclose false⟩
  | @offset imm t hmode ht =>
    have hsmall := small_of_decodeLdr hdecode (Or.inl hmode)
    exact ⟨imm, Or.inl hmode, parseBracketAny_imm hcomma hclose ht hsmall false⟩
  | @pre imm t hmode ht =>
    have hsmall := small_of_decodeLdr hdecode (Or.inr (Or.inl hmode))
    exact ⟨imm, Or.inr (Or.inl hmode), parseBracketAny_imm hcomma hclose ht hsmall true⟩
  | @post imm t hmode ht =>
    have hsmall := small_of_decodeLdr hdecode (Or.inr (Or.inr hmode))
    exact ⟨imm, Or.inr (Or.inr hmode), parseBracketAny_post hclose ht hsmall⟩

theorem LoadText.bracket {l : Load} {t : List Char} (h : LoadText l t) :
    ∃ rest, t = '[' :: rest := by
  cases h with
  | bare => exact ⟨_, rfl⟩
  | offset => exact ⟨_, rfl⟩
  | pre => exact ⟨_, rfl⟩
  | post => exact ⟨_, rfl⟩

/-- What a load with a base does, once its operands are read. -/
theorem stepsTo_parsed {l : Load} {imm : BitVec 64} (hdecode : decodeLdr insn.word = some l)
    (hmode : l.mode = .unsignedOffset imm ∨ l.mode = .preIndexed imm ∨
      l.mode = .postIndexed imm) :
    StepsTo insn tables (if l.simd = true ∨ l.size ≠ 3 ∨ l.rn = 31#5 ∨ l.rt = 31#5 then .other
        else .load l.rn l.rt l.mode)
      ((if l.simd = false ∧ l.size = 3 ∧ l.rt ≠ 31#5 then some l.rt.toNat else none).bind fun rt =>
        (if True ∧ l.rn ≠ 31#5 then some l.rn.toNat else none).bind fun rn =>
          (tables.known.get? rn).bind fun base =>
            some ((tables.record insn.address (base + UInt64.ofInt imm.toInt)).forget rt)) := by
  have hother : StepsTo insn tables .other none := stepsTo_other
  cases hsimd : l.simd with
  | true => simpa using hother
  | false =>
    by_cases hsize : l.size = 3
    · by_cases hrt : l.rt = 31#5
      · simpa [hrt] using hother
      · by_cases hrn : l.rn = 31#5
        · simpa [hrn, hsize, hrt] using hother
        · simp only [hsize, hrn, hrt, Bool.false_eq_true, ne_eq, not_true_eq_false, or_self,
            if_false, not_false_eq_true, and_self, if_true, Option.bind_some]
          refine ⟨_, .load hdecode hsimd hrn hrt hmode, ?_⟩
          cases tables.known.get? l.rn.toNat with
          | none => rfl
          | some base => rfl
    · simpa [hsize] using hother

variable (hs : StandardSyntax disarm) (hop : disarm insn.word = some opcode)
include hs hop

theorem operands_adrp (hclass : opcode.insnClass = .pcRelAddr) (hname : opcode.mnemonic = "adrp") :
    ∃ offset rd, decode insn.word = some (.adrp offset rd) ∧
      splitOperands (operandText opcode insn.address) = [generalName true false rd,
        addressText (UInt64.ofBitVec ((insn.address.toBitVec &&& ~~~0xfff#64) + offset))] := by
  obtain ⟨offset, rd, hdecode, hdisplay⟩ := hs.adrp _ opcode hop hclass hname
  obtain ⟨hcomma, hbracket, -, hne, hplain⟩ := generalName_chars true false rd
  refine ⟨offset, rd, hdecode, ?_⟩
  rw [operandText_eq (by decide) (hdisplay insn.address),
    splitOperands_address hcomma hbracket hne hplain]

theorem operands_add (hclass : opcode.insnClass = .addSubImm) (hname : opcode.mnemonic = "add") :
    ∃ wide imm rn rd third, decode insn.word = some (.addSubImm wide false false imm rn rd) ∧
      splitOperands (operandText opcode insn.address) =
        [generalName wide true rd, generalName wide true rn, third] ∧
      parseHashImm third =
        if insn.word.getLsbD 22 = true then none else some (imm.toNat : Int) := by
  obtain ⟨wide, imm, rn, rd, hdecode, hdisplay⟩ := hs.add _ opcode hop hclass hname
  obtain ⟨t, ht, hdisplay⟩ := hdisplay insn.address
  obtain ⟨hcomma, hbracket, -, hne, hplain⟩ := generalName_chars wide true rd
  obtain ⟨hcomma', hbracket', -, -, hplain'⟩ := generalName_chars wide true rn
  have htext := operandText_eq (by decide) hdisplay
  generalize insn.word.getLsbD 22 = shifted at ht ⊢
  cases ht with
  | @plain t h =>
    refine ⟨wide, imm, rn, rd, '#' :: t, hdecode, ?_, ?_⟩
    · rw [htext, splitOperands_imm ⟨hcomma, hbracket, hne, hplain⟩ ⟨hcomma', hbracket', hplain'⟩ h]
    · have hlt := imm.isLt
      rw [if_neg Bool.false_ne_true, parseHashImm_printed h (by omega)]
  | @shifted t amount h hamount =>
    refine ⟨wide, imm, rn, rd, '#' :: t ++ comma ++ (['l', 's', 'l', ' ', '#'] ++ amount), hdecode,
      ?_, ?_⟩
    · rw [htext, splitOperands_shifted ⟨hcomma, hbracket, hne, hplain⟩
        ⟨hcomma', hbracket', hplain'⟩ h hamount]
    · rw [if_pos rfl]
      apply parseHashImm_comma
      simp [comma]

theorem operands_load (hclass : opcode.insnClass = .ldstPos ∨ opcode.insnClass = .ldstImm9)
    (hname : opcode.mnemonic = "ldr") :
    ∃ l imm t, decodeLdr insn.word = some l ∧ (l.mode = .unsignedOffset imm ∨
      l.mode = .preIndexed imm ∨ l.mode = .postIndexed imm) ∧
      splitOperands (operandText opcode insn.address) = [loadName l, t] ∧
      parseBracketAny t = some (generalName true true l.rn, imm.toInt) := by
  obtain ⟨l, hdecode, hdisplay⟩ := hs.load _ opcode hop hclass hname
  obtain ⟨t, ht, hdisplay⟩ := hdisplay insn.address
  obtain ⟨imm, hmode, hparse⟩ := ht.parse hdecode
  obtain ⟨rest, rfl⟩ := ht.bracket
  obtain ⟨-, hcomma, hbracket, hplain, hne⟩ := loadName_facts l
  refine ⟨l, imm, _, hdecode, hmode, ?_, hparse⟩
  rw [operandText_eq (by decide) hdisplay, splitOperands_bracket hcomma hbracket hne hplain]

theorem operands_literal (hclass : opcode.insnClass = .loadLit) (hname : opcode.mnemonic = "ldr") :
    ∃ l offset, decodeLdr insn.word = some l ∧ l.mode = .literal offset ∧
      splitOperands (operandText opcode insn.address) =
        [loadName l, addressText (UInt64.ofBitVec (insn.address.toBitVec + offset))] := by
  obtain ⟨l, offset, hdecode, hmode, hdisplay⟩ := hs.literal _ opcode hop hclass hname
  obtain ⟨-, hcomma, hbracket, hplain, hne⟩ := loadName_facts l
  refine ⟨l, offset, hdecode, hmode, ?_⟩
  rw [operandText_eq (by decide) (hdisplay insn.address),
    splitOperands_address hcomma hbracket hne hplain]

theorem steps_adrp (hclass : opcode.insnClass = .pcRelAddr) :
    StepsTo insn tables (form disarm insn.word) (tryMaterializeStep disarm insn tables) := by
  unfold tryMaterializeStep form
  by_cases hname : opcode.mnemonic = "adrp"
  · obtain ⟨offset, rd, hdecode, hparts⟩ := operands_adrp hs hop hclass hname
    simp only [hop, hclass, hname, hparts, hdecode, isFormattable, Option.bind_eq_bind,
      Option.bind_some, Bool.not_true, Bool.false_eq_true, and_self, if_true, if_false,
      List.getElem?_cons_zero, List.getElem?_cons_succ, regNum_generalName,
      parseBareHex_addressText]
    by_cases hrd : rd = 31#5
    · simp only [hrd, ne_eq, not_true_eq_false, if_true]
      exact stepsTo_other
    · simp only [hrd, ne_eq, not_false_eq_true, if_false]
      exact ⟨_, .adrp hdecode hrd, rfl⟩
  · simp only [hop, hclass, hname, isFormattable, Option.bind_eq_bind, Option.bind_some,
      Bool.not_true, Bool.false_eq_true, and_false, if_false, reduceCtorEq, false_and, or_self]
    exact stepsTo_other

theorem steps_add (hclass : opcode.insnClass = .addSubImm) :
    StepsTo insn tables (form disarm insn.word) (tryMaterializeStep disarm insn tables) := by
  unfold tryMaterializeStep form
  by_cases hname : opcode.mnemonic = "add"
  · obtain ⟨wide, imm, rn, rd, third, hdecode, hparts, himm⟩ := operands_add hs hop hclass hname
    simp only [hop, hclass, hname, hparts, hdecode, isFormattable, Option.bind_eq_bind,
      Option.bind_some, Bool.not_true, Bool.false_eq_true, and_self, if_true, if_false,
      List.getElem?_cons_zero, List.getElem?_cons_succ, regNum_generalName, himm, reduceCtorEq,
      false_and, List.length_cons, List.length_nil]
    cases wide with
    | false => exact stepsTo_other
    | true =>
      by_cases hrd : rd = 31#5
      · simp only [hrd, or_true, if_true]
        exact stepsTo_other
      · by_cases hrn : rn = 31#5
        · simpa [hrd, hrn] using (stepsTo_other : StepsTo insn tables .other none)
        · cases hshift : insn.word.getLsbD 22 with
          | true =>
            simpa [hrd, hrn] using (stepsTo_other : StepsTo insn tables .other none)
          | false =>
            simp only [hrd, hrn, Bool.true_eq_false, Bool.false_eq_true, or_self, if_false,
              not_false_eq_true, ne_eq, and_self, if_true, Option.bind_some]
            refine ⟨_, .add hdecode hrn hrd, ?_⟩
            cases tables.known.get? rn.toNat with
            | none => rfl
            | some base => rfl
  · simp only [hop, hclass, hname, isFormattable, Option.bind_eq_bind, Option.bind_some,
      Bool.not_true, Bool.false_eq_true, and_false, false_and, if_false, reduceCtorEq, or_self]
    exact stepsTo_other

theorem steps_load (hclass : opcode.insnClass = .ldstPos ∨ opcode.insnClass = .ldstImm9) :
    StepsTo insn tables (form disarm insn.word) (tryMaterializeStep disarm insn tables) := by
  unfold tryMaterializeStep form
  by_cases hname : opcode.mnemonic = "ldr"
  · obtain ⟨l, imm, t, hdecode, hmode, hparts, haddress⟩ := operands_load hs hop hclass hname
    have hload : StepsTo insn tables _ _ := stepsTo_parsed hdecode hmode
    obtain hclass | hclass := hclass
    all_goals
      simp only [hop, hclass, hname, hparts, hdecode, isFormattable, Option.bind_eq_bind,
        Option.bind_some, Bool.not_true, Bool.false_eq_true, and_self, if_true, if_false,
        List.getElem?_cons_zero, List.getElem?_cons_succ, (loadName_facts l).1, reduceCtorEq,
        false_and, or_false, or_true, List.length_cons, List.length_nil, haddress,
        regNum_generalName]
      exact hload
  · obtain hclass | hclass := hclass
    all_goals
      simp only [hop, hclass, hname, isFormattable, Option.bind_eq_bind, Option.bind_some,
        Bool.not_true, Bool.false_eq_true, and_false, false_and, if_false, reduceCtorEq]
      exact stepsTo_other

theorem steps_literal (hclass : opcode.insnClass = .loadLit) :
    StepsTo insn tables (form disarm insn.word) (tryMaterializeStep disarm insn tables) := by
  unfold tryMaterializeStep form
  by_cases hname : opcode.mnemonic = "ldr"
  · obtain ⟨l, offset, hdecode, hmode, hparts⟩ := operands_literal hs hop hclass hname
    simp only [hop, hclass, hname, hparts, hdecode, isFormattable, Option.bind_eq_bind,
      Option.bind_some, Bool.not_true, Bool.false_eq_true, and_self, if_true, if_false,
      List.getElem?_cons_zero, List.getElem?_cons_succ, (loadName_facts l).1, reduceCtorEq,
      false_and, or_self, parseBareHex_addressText]
    have hother : StepsTo insn tables .other none := stepsTo_other
    cases hsimd : l.simd with
    | true => simpa using hother
    | false =>
      by_cases hsize : l.size = 3
      · by_cases hrt : l.rt = 31#5
        · simpa [hrt] using hother
        · simp only [hsize, hrt, Bool.false_eq_true, ne_eq, not_true_eq_false, or_self, if_false,
            not_false_eq_true, and_self, if_true, Option.bind_some]
          exact ⟨_, .literal hdecode hsimd hrt hmode, rfl⟩
      · simpa [hsize] using hother
  · simp only [hop, hclass, hname, isFormattable, Option.bind_eq_bind, Option.bind_some,
      Bool.not_true, Bool.false_eq_true, and_false, false_and, if_false, reduceCtorEq, or_self]
    exact stepsTo_other

end

section

variable {disarm : Word → Option Opcode} {insn : Insn} {tables : Tables}

theorem steps_spec (hs : StandardSyntax disarm) :
    StepsTo insn tables (form disarm insn.word) (tryMaterializeStep disarm insn tables) := by
  cases hop : disarm insn.word with
  | none =>
    rw [tryMaterializeStep, form, hop]
    exact stepsTo_other
  | some opcode =>
    cases hclass : opcode.insnClass with
    | pcRelAddr => exact steps_adrp hs hop hclass
    | addSubImm => exact steps_add hs hop hclass
    | ldstPos => exact steps_load hs hop (Or.inl hclass)
    | ldstImm9 => exact steps_load hs hop (Or.inr hclass)
    | loadLit => exact steps_literal hs hop hclass
    | _ =>
      unfold tryMaterializeStep form
      simp only [hop, hclass, isFormattable, Option.bind_eq_bind, Option.bind_some, Bool.not_true,
        Bool.not_false, Bool.false_eq_true, if_true, if_false, false_and, reduceCtorEq, or_self]
      exact stepsTo_other

end

/-! ## What is known -/

/-- The same registers are known and tracked. -/
def Tracks (known : OrdMap Nat UInt64) (d : Drift) : Prop :=
  ∀ r : Reg, (known.get? r.toNat).isSome = (d r).isSome

/-- The registers hold what is known of them, but for their drift. -/
def Agrees (known : OrdMap Nat UInt64) (d : Drift) (s : State) : Prop :=
  ∀ (r : Reg) k e, known.get? r.toNat = some k → d r = some e → s.reg r = k.toBitVec + e

section

variable {known : OrdMap Nat UInt64} {d : Drift} {s : State} {v : UInt64} {e : BitVec 64}

theorem get?_upsert_reg (rd r : Reg) :
    (known.upsert rd.toNat fun _ => v).get? r.toNat =
      if r = rd then some v else known.get? r.toNat := by
  rw [OrdMap.get?_upsert]
  by_cases h : r = rd
  · rw [if_pos h, if_pos (congrArg BitVec.toNat h)]
  · rw [if_neg h, if_neg fun hn => h (BitVec.eq_of_toNat_eq hn)]

theorem get?_erase_reg (rt r : Reg) :
    (known.erase rt.toNat).get? r.toNat = if r = rt then none else known.get? r.toNat := by
  rw [OrdMap.get?_erase]
  by_cases h : r = rt
  · rw [if_pos h, if_pos (congrArg BitVec.toNat h)]
  · rw [if_neg h, if_neg fun hn => h (BitVec.eq_of_toNat_eq hn)]

theorem Tracks.upsert (h : Tracks known d) (rd : Reg) :
    Tracks (known.upsert rd.toNat fun _ => v) (Function.update d rd (some e)) := by
  intro r
  rw [get?_upsert_reg, Function.update_apply]
  by_cases hr : r = rd
  · rw [if_pos hr, if_pos hr]
    rfl
  · rw [if_neg hr, if_neg hr]
    exact h r

theorem Tracks.erase (h : Tracks known d) (rt : Reg) :
    Tracks (known.erase rt.toNat) (Function.update d rt none) := by
  intro r
  rw [get?_erase_reg, Function.update_apply]
  by_cases hr : r = rt
  · rw [if_pos hr, if_pos hr]
    rfl
  · rw [if_neg hr, if_neg hr]
    exact h r

theorem Tracks.move (h : Tracks known d) {rn : Reg} {e' : BitVec 64} (hrn : d rn = some e) :
    Tracks known (Function.update d rn (some e')) := by
  intro r
  rw [Function.update_apply]
  by_cases hr : r = rn
  · rw [if_pos hr, h r, hr, hrn]
    rfl
  · rw [if_neg hr]
    exact h r

theorem tracks_none : Tracks ∅ fun _ => none := fun _ => rfl

theorem agrees_none : Agrees ∅ d s := fun r k e h => by
  rw [OrdMap.get?_empty] at h
  cases h

theorem Agrees.upsert (h : Agrees known d s) (rd : Reg) :
    Agrees (known.upsert rd.toNat fun _ => v) (Function.update d rd (some e))
      (s.write rd (v.toBitVec + e)) := by
  intro r k e' hk he
  rw [get?_upsert_reg] at hk
  rw [Function.update_apply] at he
  by_cases hr : r = rd
  · rw [if_pos hr] at hk he
    rw [hr, State.reg_write_self, Option.some.inj hk, Option.some.inj he]
  · rw [if_neg hr] at hk he
    rw [State.reg_write_of_ne hr]
    exact h r k e' hk he

theorem Agrees.erase (h : Agrees known d s) (rt : Reg) (value : BitVec 64) :
    Agrees (known.erase rt.toNat) (Function.update d rt none) (s.write rt value) := by
  intro r k e' hk he
  rw [get?_erase_reg] at hk
  rw [Function.update_apply] at he
  by_cases hr : r = rt
  · rw [if_pos hr] at hk
    cases hk
  · rw [if_neg hr] at hk he
    rw [State.reg_write_of_ne hr]
    exact h r k e' hk he

/-- A register that moves, and its drift with it. -/
theorem Agrees.move (h : Agrees known d s) {rn : Reg} (hrn : d rn = some e) (imm : BitVec 64) :
    Agrees known (Function.update d rn (some (e + imm))) (s.write rn (s.reg rn + imm)) := by
  intro r k e' hk he
  rw [Function.update_apply] at he
  by_cases hr : r = rn
  · rw [if_pos hr] at he
    rw [hr] at hk ⊢
    rw [State.reg_write_self, h rn k e hk hrn, ← Option.some.inj he, BitVec.add_assoc]
  · rw [if_neg hr] at he
    rw [State.reg_write_of_ne hr]
    exact h r k e' hk he

end

/-! ## Execution of the tracked forms -/

section

variable {insn : Insn} {M : Machine} {s : State}

/-- No load is an ADRP or an ADD. -/
theorem decode_of_decodeLdr {w : Word} {l : Load} (h : decodeLdr w = some l) :
    (∀ wide sub setFlags imm rn rd, decode w ≠ some (.addSubImm wide sub setFlags imm rn rd)) ∧
      ∀ offset rd, decode w ≠ some (.adrp offset rd) := by
  have hbit : w.getLsbD 27 = true := by
    obtain ⟨hclass, -⟩ | ⟨hclass, -⟩ := decodeLdr_cases h
    all_goals exact getLsbD_of_bits hclass (i := 0) (by decide)
  have hnot : ∀ value : BitVec 3, value.getLsbD 1 = false → bits w 26 3 ≠ value := by
    intro value hvalue hbits
    have hset := getLsbD_of_bits hbits (i := 1) (by decide)
    rw [hvalue] at hset
    exact Bool.false_ne_true (hset.symm.trans hbit)
  have hdecode : decode w = if bits w 25 3 = 0b101#3 then decodeRegister w
      else if bits w 27 1 = 1#1 ∧ bits w 25 1 = 0#1 then decodeLoad w else none := by
    rw [decode, if_neg (hnot _ (by decide)), if_neg (hnot _ (by decide))]
  rw [hdecode]
  unfold decodeRegister decodeLoad
  constructor
  · intro wide sub setFlags imm rn rd
    split
    · split <;> simp
    · split
      · split <;> simp
      · simp
  · intro offset rd
    split
    · split <;> simp
    · split
      · split <;> simp
      · simp

theorem exec_adrp {offset : BitVec 64} {rd : Reg}
    (hdecode : decode insn.word = some (.adrp offset rd)) (hrd : rd ≠ 31#5) :
    M.exec insn s = s.write rd ((insn.address.toBitVec &&& ~~~0xfff#64) + offset) := by
  rw [Machine.exec, hdecode]
  exact State.writeZ_of_ne hrd

theorem exec_add {imm : BitVec 24} {rn rd : Reg}
    (hdecode : decode insn.word = some (.addSubImm true false false imm rn rd)) :
    M.exec insn s = s.write rd (s.reg rn + imm.setWidth 64) := by
  rw [Machine.exec, hdecode]
  show s.write rd (addSub false (s.reg rn) (imm.setWidth 64)).1 = _
  rw [addSub_add_fst]

theorem exec_load {l : Load} (hdecode : decodeLdr insn.word = some l) :
    M.exec insn s = l.exec (M.load l (l.address insn.address.toBitVec s) s) s := by
  obtain ⟨hadd, hadrp⟩ := decode_of_decodeLdr hdecode
  unfold Machine.exec
  split
  · rename_i h
    exact (hadd _ _ _ _ _ _ h).elim
  · rename_i h
    exact (hadrp _ _ h).elim
  · rw [hdecode]

theorem computed_load {l : Load} (hdecode : decodeLdr insn.word = some l) :
    computed insn s = some (l.address insn.address.toBitVec s) := by
  obtain ⟨hadd, -⟩ := decode_of_decodeLdr hdecode
  unfold computed
  split
  · rename_i h
    exact (hadd _ _ _ _ _ _ h).elim
  · rw [hdecode]
    rfl

theorem computed_add {imm : BitVec 24} {rn rd : Reg}
    (hdecode : decode insn.word = some (.addSubImm true false false imm rn rd)) :
    computed insn s = some (s.reg rn + imm.setWidth 64) := by
  rw [computed, hdecode]
  show some (addSub false (s.reg rn) (imm.setWidth 64)).1 = _
  rw [addSub_add_fst]

end

/-! ## Tracking a step -/

section

variable {insn : Insn} {known : OrdMap Nat UInt64} {d : Drift} {f : Form}
  {r : Option (OrdMap Nat UInt64 × Option UInt64)}

theorem Tracks.known_or (h : Tracks known d) (rn : Reg) :
    (known.get? rn.toNat = none ∧ d rn = none) ∨
      ∃ k e, known.get? rn.toNat = some k ∧ d rn = some e := by
  have hrn := h rn
  cases hk : known.get? rn.toNat with
  | none =>
    rw [hk] at hrn
    exact Or.inl ⟨rfl, Option.not_isSome_iff_eq_none.mp fun hd => by simp [hd] at hrn⟩
  | some k =>
    rw [hk] at hrn
    obtain ⟨e, he⟩ := Option.isSome_iff_exists.mp hrn.symm
    exact Or.inr ⟨k, e, rfl, he⟩

theorem Steps.tracks (h : Steps insn known f r) (ht : Tracks known d) :
    Tracks ((r.map Prod.fst).getD ∅) (d.step f) := by
  cases h with
  | adrp => exact ht.upsert _
  | @add imm rn rd =>
    obtain ⟨hk, hd⟩ | ⟨k, e, hk, hd⟩ := ht.known_or rn
    · simpa [hk, Drift.step, hd] using tracks_none
    · simpa [hk, Drift.step, hd] using ht.upsert rd
  | @load l imm =>
    obtain ⟨hk, hd⟩ | ⟨k, e, hk, hd⟩ := ht.known_or l.rn
    · simpa [hk, Drift.step, hd] using tracks_none
    · simpa [hk, Drift.step, hd] using (ht.move hd).erase l.rt
  | literal => exact ht.erase _
  | other => exact tracks_none

/-- The base of a load is written back, and the register it loads is any. -/
theorem Agrees.exec_load {l : Load} {s : State} {e imm : BitVec 64} (h : Agrees known d s)
    (hgeneral : l.simd = false) (hrt : l.rt ≠ 31#5) (hd : d l.rn = some e)
    (hmode : l.mode = .unsignedOffset imm ∨ l.mode = .preIndexed imm ∨ l.mode = .postIndexed imm)
    (value : BitVec 64) :
    Agrees (known.erase l.rt.toNat)
      (Function.update (Function.update d l.rn (some (e + l.mode.writeBack))) l.rt none)
      (l.exec value s) := by
  unfold Load.exec
  simp only [hgeneral, Bool.false_eq_true, if_false, State.writeZ_of_ne hrt]
  rcases hmode with hmode | hmode | hmode
  · have hstay : Function.update d l.rn (some (e + 0)) = d := by
      rw [add_zero, ← hd, Function.update_eq_self]
    rw [hmode]
    show Agrees _ (Function.update (Function.update d l.rn (some (e + 0))) l.rt none) _
    rw [hstay]
    exact h.erase l.rt value
  · rw [hmode]
    exact (h.move hd imm).erase l.rt value
  · rw [hmode]
    exact (h.move hd imm).erase l.rt value

theorem toBitVec_ofInt_imm (imm : BitVec 24) :
    (UInt64.ofInt imm.toNat).toBitVec = imm.setWidth 64 := by
  rw [CapaX.Recovery.toBitVec_ofInt, BitVec.ofInt_natCast, BitVec.ofNat_toNat]

theorem add_right_comm (base e imm : BitVec 64) : base + e + imm = base + imm + e := by
  rw [BitVec.add_assoc, BitVec.add_comm e, ← BitVec.add_assoc]

theorem Steps.agrees {s : State} (h : Steps insn known f r) (ht : Tracks known d)
    (ha : Agrees known d s) (M : Machine) :
    Agrees ((r.map Prod.fst).getD ∅) (d.step f) (M.exec insn s) := by
  cases h with
  | @adrp offset rd hdecode hrd =>
    have hpage := ha.upsert (e := 0)
      (v := UInt64.ofBitVec ((insn.address.toBitVec &&& ~~~0xfff#64) + offset)) rd
    rw [add_zero] at hpage
    rw [exec_adrp hdecode hrd]
    exact hpage
  | @add imm rn rd hdecode hrn hrd =>
    obtain ⟨hk, hd⟩ | ⟨k, e, hk, hd⟩ := ht.known_or rn
    · rw [hk]
      exact agrees_none
    · have hsum : s.reg rn + imm.setWidth 64 = (k + UInt64.ofInt imm.toNat).toBitVec + e := by
        rw [ha rn k e hk hd, UInt64.toBitVec_add, toBitVec_ofInt_imm, add_right_comm]
      rw [exec_add hdecode, hsum, hk, Drift.step, hd]
      exact ha.upsert rd
  | @load l imm hdecode hgeneral hrn hrt hmode =>
    obtain ⟨hk, hd⟩ | ⟨k, e, hk, hd⟩ := ht.known_or l.rn
    · rw [hk]
      exact agrees_none
    · rw [exec_load hdecode, hk]
      simpa [Drift.step, hd] using ha.exec_load hgeneral hrt hd hmode _
  | @literal l offset hdecode hgeneral hrt hmode =>
    rw [exec_load hdecode]
    unfold Load.exec
    simp only [hgeneral, hmode, Bool.false_eq_true, if_false, State.writeZ_of_ne hrt]
    exact ha.erase l.rt _
  | other => exact agrees_none

/-- How far the recorded value is from the computed one. -/
theorem Steps.computed {k : OrdMap Nat UInt64} {v : UInt64}
    (h : Steps insn known f (some (k, some v))) (ht : Tracks known d) :
    ∃ δ : BitVec 64, (∀ s, Agrees known d s → computed insn s = some (v.toBitVec + δ)) ∧
      (δ = 0 ↔ d.Fits f) := by
  generalize hr : some (k, some v) = r at h
  cases h with
  | adrp => cases hr
  | @add imm rn rd hdecode hrn hrd =>
    obtain ⟨base, hk, hvalue⟩ := Option.map_eq_some_iff.mp hr.symm
    obtain ⟨-, hvalue⟩ := Prod.mk.inj hvalue
    obtain ⟨hnone, -⟩ | ⟨k', e, hk', hd⟩ := ht.known_or rn
    · rw [hk] at hnone
      cases hnone
    · refine ⟨e, fun s ha => ?_, ?_⟩
      · rw [computed_add hdecode, ha rn base e hk hd, ← Option.some.inj hvalue, UInt64.toBitVec_add,
          toBitVec_ofInt_imm, add_right_comm]
      · simp [Drift.Fits, hd]
  | @load l imm hdecode hgeneral hrn hrt hmode =>
    obtain ⟨base, hk, hvalue⟩ := Option.map_eq_some_iff.mp hr.symm
    obtain ⟨-, hvalue⟩ := Prod.mk.inj hvalue
    obtain ⟨hnone, -⟩ | ⟨k', e, hk', hd⟩ := ht.known_or l.rn
    · rw [hk] at hnone
      cases hnone
    · have hbase : ∀ s, Agrees known d s →
          s.reg l.rn + imm = v.toBitVec + e := fun s ha => by
        rw [ha l.rn base e hk hd, ← Option.some.inj hvalue, UInt64.toBitVec_add,
          toBitVec_ofInt_toInt, add_right_comm]
      rcases hmode with hmode | hmode | hmode
      · refine ⟨e, fun s ha => ?_, ?_⟩
        · rw [computed_load hdecode, Load.address, hmode, ← hbase s ha]
        · simp [Drift.Fits, hd, hmode]
      · refine ⟨e, fun s ha => ?_, ?_⟩
        · rw [computed_load hdecode, Load.address, hmode, ← hbase s ha]
        · simp [Drift.Fits, hd, hmode]
      · refine ⟨e - imm, fun s ha => ?_, ?_⟩
        · rw [computed_load hdecode, Load.address, hmode, BitVec.sub_eq_add_neg,
            ← BitVec.add_assoc, ← hbase s ha, ← BitVec.sub_eq_add_neg, BitVec.add_sub_cancel]
        · have hzero : e - imm = 0#64 ↔ e = imm := sub_eq_zero
          simpa [Drift.Fits, hd, hmode] using hzero
  | @literal l offset hdecode hgeneral hrt hmode =>
    obtain ⟨-, hvalue⟩ := Prod.mk.inj (Option.some.inj hr)
    refine ⟨0, fun s _ => ?_, ?_⟩
    · rw [computed_load hdecode, Load.address, hmode, add_zero, Option.some.inj hvalue]
    · simp [Drift.Fits]
  | other => cases hr

/-- What records no value has no base that could have drifted. -/
theorem Steps.fits (h : Steps insn known f r) (ht : Tracks known d)
    (hnone : r.bind Prod.snd = none) : d.Fits f := by
  cases h with
  | @add imm rn rd =>
    obtain ⟨hk, hd⟩ | ⟨k, e, hk, hd⟩ := ht.known_or rn
    · simp [Drift.Fits, hd]
    · simp [hk] at hnone
  | @load l imm =>
    obtain ⟨hk, hd⟩ | ⟨k, e, hk, hd⟩ := ht.known_or l.rn
    · simp [Drift.Fits, hd]
    · simp [hk] at hnone
  | _ => trivial

end

/-! ## Blocks -/

section

variable {disarm : Word → Option Opcode} (before : List Insn) (insn : Insn)

theorem materialize_concat : materialize disarm (before ++ [insn]) =
    materializeStep disarm (materialize disarm before) insn := by
  rw [materialize, List.foldl_append]
  rfl

theorem drift_concat : drift disarm (before ++ [insn]) =
    (drift disarm before).step (form disarm insn.word) := by
  rw [drift, List.foldl_append]
  rfl

theorem Machine.run_concat (M : Machine) (s : State) :
    M.run (before ++ [insn]) s = M.exec insn (M.run before s) := by
  rw [Machine.run, List.foldl_append]
  rfl

theorem materializeStep_spec (hs : StandardSyntax disarm) (tables : Tables) :
    ∃ r, Steps insn tables.known (form disarm insn.word) r ∧
      materializeStep disarm tables insn = tables.put insn (r.getD (∅, none)) := by
  have hspec : StepsTo insn tables _ (tryMaterializeStep disarm insn tables) := steps_spec hs
  obtain ⟨r, hsteps, htry⟩ := hspec
  refine ⟨r, hsteps, ?_⟩
  rw [materializeStep, htry]
  cases r <;> rfl

theorem known_concat (hs : StandardSyntax disarm) :
    ∃ r, Steps insn (materialize disarm before).known (form disarm insn.word) r ∧
      (materialize disarm (before ++ [insn])).known = (r.map Prod.fst).getD ∅ := by
  obtain ⟨r, hsteps, hstep⟩ := materializeStep_spec insn hs (materialize disarm before)
  refine ⟨r, hsteps, ?_⟩
  rw [materialize_concat, hstep]
  cases r <;> rfl

variable {before insn}

/-- The registers that are known after a block are those its drift is about. -/
theorem tracks_materialize (hs : StandardSyntax disarm) (block : List Insn) :
    Tracks (materialize disarm block).known (drift disarm block) := by
  induction block using List.reverseRecOn with
  | nil => exact tracks_none
  | append_singleton before insn ih =>
    obtain ⟨r, hsteps, hknown⟩ := known_concat before insn hs
    rw [hknown, drift_concat]
    exact hsteps.tracks ih

/-- What is known after a block holds in any run of it, but for the drift. -/
theorem agrees_materialize (hs : StandardSyntax disarm) (M : Machine) (s : State)
    (block : List Insn) :
    Agrees (materialize disarm block).known (drift disarm block) (M.run block s) := by
  induction block using List.reverseRecOn with
  | nil => exact agrees_none
  | append_singleton before insn ih =>
    obtain ⟨r, hsteps, hknown⟩ := known_concat before insn hs
    rw [hknown, drift_concat, M.run_concat]
    exact hsteps.agrees (tracks_materialize hs before) ih M

/-- After `before`, the instruction records `v`. -/
def Entry (disarm : Word → Option Opcode) (before : List Insn) (insn : Insn) (v : UInt64) : Prop :=
  ∃ k, Steps insn (materialize disarm before).known (form disarm insn.word) (some (k, some v))

theorem Entry.computed (hs : StandardSyntax disarm) {v : UInt64}
    (h : Entry disarm before insn v) :
    ∃ δ : BitVec 64, (∀ (M : Machine) s,
        Aarch64.computed insn (M.run before s) = some (v.toBitVec + δ)) ∧
      (δ = 0 ↔ (drift disarm before).Fits (form disarm insn.word)) := by
  obtain ⟨k, hsteps⟩ := h
  obtain ⟨δ, hcomputed, hzero⟩ := hsteps.computed (tracks_materialize hs before)
  exact ⟨δ, fun M s => hcomputed _ (agrees_materialize hs M s before), hzero⟩

/-- An instruction is recorded, or it adds nothing and fits. -/
theorem entry_or (hs : StandardSyntax disarm) (before : List Insn) (insn : Insn) :
    (∃ v, Entry disarm before insn v ∧ materializeAddresses disarm (before ++ [insn]) =
        (materializeAddresses disarm before).upsert insn.address fun _ => v) ∨
      ((drift disarm before).Fits (form disarm insn.word) ∧
        materializeAddresses disarm (before ++ [insn]) = materializeAddresses disarm before) := by
  obtain ⟨r, hsteps, hstep⟩ := materializeStep_spec insn hs (materialize disarm before)
  have hfits := hsteps.fits (tracks_materialize hs before)
  simp only [materializeAddresses, materialize_concat, hstep]
  cases r with
  | none => exact Or.inr ⟨hfits rfl, rfl⟩
  | some kv =>
    obtain ⟨k, v⟩ := kv
    cases v with
    | none => exact Or.inr ⟨hfits rfl, rfl⟩
    | some v => exact Or.inl ⟨v, ⟨k, hsteps⟩, rfl⟩

theorem entry_of_get? (hs : StandardSyntax disarm) {block : List Insn} {a v : UInt64}
    (h : (materializeAddresses disarm block).get? a = some v) :
    ∃ before insn after, block = before ++ insn :: after ∧ insn.address = a ∧
      Entry disarm before insn v := by
  induction block using List.reverseRecOn with
  | nil =>
    have hempty : (∅ : OrdMap UInt64 UInt64).get? a = some v := h
    rw [OrdMap.get?_empty] at hempty
    cases hempty
  | append_singleton start last ih =>
    have hlater (h : (materializeAddresses disarm start).get? a = some v) :
        ∃ before insn after, start ++ [last] = before ++ insn :: after ∧ insn.address = a ∧
          Entry disarm before insn v := by
      obtain ⟨before, insn, after, rfl, ha, hentry⟩ := ih h
      exact ⟨before, insn, after ++ [last], by simp, ha, hentry⟩
    obtain ⟨v', hentry, hout⟩ | ⟨-, hout⟩ := entry_or hs start last
    · rw [hout, OrdMap.get?_upsert] at h
      by_cases ha : a = last.address
      · rw [if_pos ha] at h
        obtain rfl := Option.some.inj h
        exact ⟨start, last, [], rfl, ha.symm, hentry⟩
      · rw [if_neg ha] at h
        exact hlater h
    · rw [hout] at h
      exact hlater h

theorem get?_append (hs : StandardSyntax disarm) (before : List Insn) {after : List Insn}
    {a : UInt64} (hafter : a ∉ after.map (·.address)) :
    (materializeAddresses disarm (before ++ after)).get? a =
      (materializeAddresses disarm before).get? a := by
  induction after using List.reverseRecOn with
  | nil => rw [List.append_nil]
  | append_singleton start last ih =>
    simp only [List.map_append, List.mem_append, List.map_cons, List.map_nil, List.mem_singleton,
      not_or] at hafter
    obtain ⟨hstart, hlast⟩ := hafter
    rw [← ih hstart, ← List.append_assoc]
    obtain ⟨v, -, hout⟩ | ⟨-, hout⟩ := entry_or hs (before ++ start) last
    · rw [hout, OrdMap.get?_upsert, if_neg hlast]
    · rw [hout]

/-- Where all addresses differ, one says where an instruction is. -/
theorem eq_of_address {before before' after after' : List Insn} {insn insn' : Insn}
    (hnodup : ((before ++ insn :: after).map (·.address)).Nodup)
    (h : before ++ insn :: after = before' ++ insn' :: after')
    (haddress : insn'.address = insn.address) : before = before' ∧ insn = insn' := by
  induction before generalizing before' with
  | nil =>
    cases before' with
    | nil => exact ⟨rfl, (List.cons.inj h).1⟩
    | cons first rest =>
      obtain ⟨rfl, rfl⟩ := List.cons.inj h
      have hnot := (List.nodup_cons.mp hnodup).1
      simp [haddress] at hnot
  | cons first rest ih =>
    have hcons := List.nodup_cons.mp hnodup
    cases before' with
    | nil =>
      obtain ⟨rfl, -⟩ := List.cons.inj h
      simp [haddress] at hcons
    | cons first' rest' =>
      obtain ⟨rfl, htail⟩ := List.cons.inj h
      obtain ⟨rfl, rfl⟩ := ih hcons.2 htail
      exact ⟨rfl, rfl⟩

end

/-- Instructions of a block have addresses of their own, and the map is right exactly where no base
    has drifted. -/
theorem materializeSound_iff (disarm : Word → Option Opcode) (hs : StandardSyntax disarm)
    (block : List Insn) (hnodup : (block.map (·.address)).Nodup) :
    MaterializeSound disarm block ↔ Settled disarm block := by
  constructor
  · intro hsound before insn after hblock
    obtain ⟨v, hentry, hout⟩ | ⟨hfits, -⟩ := entry_or hs before insn
    · have hrest : insn.address ∉ after.map (·.address) := by
        rw [hblock, List.map_append, List.map_cons] at hnodup
        exact (List.nodup_cons.mp (List.nodup_append.mp hnodup).2.1).1
      have hget : (materializeAddresses disarm block).get? insn.address = some v := by
        rw [hblock, List.append_cons, get?_append hs _ hrest, hout, OrdMap.get?_upsert, if_pos rfl]
      obtain ⟨before', insn', after', hblock', haddress, hright⟩ := hsound _ v hget
      obtain ⟨rfl, rfl⟩ := eq_of_address (hblock ▸ hnodup) (hblock.symm.trans hblock') haddress
      obtain ⟨δ, hcomputed, hzero⟩ := hentry.computed hs
      apply hzero.mp
      have hsame := (hcomputed ⟨fun _ _ _ => 0, fun _ s => s⟩ ⟨fun _ => 0, ⟨false, false, false,
        false⟩⟩).symm.trans (hright _ _)
      exact add_eq_left.mp (Option.some.inj hsame)
    · exact hfits
  · intro hsettled a v hget
    obtain ⟨before, insn, after, hblock, haddress, hentry⟩ := entry_of_get? hs hget
    obtain ⟨δ, hcomputed, hzero⟩ := hentry.computed hs
    refine ⟨before, insn, after, hblock, haddress, fun M s => ?_⟩
    rw [hcomputed M s, hzero.mpr (hsettled before insn after hblock), add_zero]

/-! ## A disassembler -/

def ldrText (l : Load) (address : List Char) : List Char :=
  "ldr".toList ++ (['\t', '\t'] ++ (loadName l ++ (comma ++ address)))

def disassembleLoad (l : Load) : Option Opcode :=
  let base := generalName true true l.rn
  match l.mode with
  | .literal offset => some ⟨.loadLit, "ldr", fun pc =>
    ldrText l (addressText (UInt64.ofBitVec (pc.toBitVec + offset)))⟩
  | .unsignedOffset imm => some ⟨.ldstPos, "ldr", fun _ =>
    ldrText l ('[' :: ((base ++ ([',', ' ', '#'] ++ decimalText imm.toInt)) ++ [']']))⟩
  | .preIndexed imm => some ⟨.ldstImm9, "ldr", fun _ =>
    ldrText l ('[' :: ((base ++ ([',', ' ', '#'] ++ decimalText imm.toInt)) ++ [']', '!']))⟩
  | .postIndexed imm => some ⟨.ldstImm9, "ldr", fun _ =>
    ldrText l ('[' :: (base ++ ([']', ',', ' ', '#'] ++ decimalText imm.toInt)))⟩
  | .registerOffset _ _ _ => none

def addImmText (shifted : Bool) (imm : BitVec 24) : List Char :=
  if shifted then
    '#' :: decimalText (imm.toNat / 4096 : Nat) ++
      (comma ++ (['l', 's', 'l', ' ', '#'] ++ decimalText 12))
  else '#' :: decimalText imm.toNat

/-- A disassembler of ADRP, ADD and LDR, with decimal immediates. -/
def disassemble (w : Word) : Option Opcode :=
  match decode w with
  | some (.adrp offset rd) => some ⟨.pcRelAddr, "adrp", fun pc =>
    "adrp".toList ++ (['\t', '\t'] ++ (generalName true false rd ++ (comma ++
      addressText (UInt64.ofBitVec ((pc.toBitVec &&& ~~~0xfff#64) + offset)))))⟩
  | some (.addSubImm wide false false imm rn rd) => some ⟨.addSubImm, "add", fun _ =>
    "add".toList ++ (['\t', '\t'] ++ (generalName wide true rd ++ (comma ++
      (generalName wide true rn ++ (comma ++ addImmText (w.getLsbD 22) imm)))))⟩
  | _ => (decodeLdr w).bind disassembleLoad

theorem addText_addImmText (shifted : Bool) (imm : BitVec 24) :
    AddText imm shifted (addImmText shifted imm) := by
  cases shifted with
  | false => exact .plain (Or.inl rfl)
  | true => exact .shifted (Or.inl rfl) (Or.inl rfl)

/-- What it prints of a load is printed of a literal or of one with a base. -/
theorem disassembleLoad_cases {l : Load} {op : Opcode} (h : disassembleLoad l = some op) :
    (op.insnClass = .loadLit ∧ ∃ offset, l.mode = .literal offset ∧ ∀ pc : UInt64,
        op.displayAt pc = ldrText l (addressText (UInt64.ofBitVec (pc.toBitVec + offset)))) ∨
      ((op.insnClass = .ldstPos ∨ op.insnClass = .ldstImm9) ∧ ∀ pc : UInt64,
        ∃ t, LoadText l t ∧ op.displayAt pc = ldrText l t) := by
  unfold disassembleLoad at h
  dsimp only at h
  split at h
  · rename_i offset hmode
    obtain rfl := Option.some.inj h
    exact Or.inl ⟨rfl, offset, hmode, fun _ => rfl⟩
  · rename_i imm hmode
    obtain rfl := Option.some.inj h
    exact Or.inr ⟨Or.inl rfl, fun _ => ⟨_, .offset hmode (Or.inl rfl), rfl⟩⟩
  · rename_i imm hmode
    obtain rfl := Option.some.inj h
    exact Or.inr ⟨Or.inr rfl, fun _ => ⟨_, .pre hmode (Or.inl rfl), rfl⟩⟩
  · rename_i imm hmode
    obtain rfl := Option.some.inj h
    exact Or.inr ⟨Or.inr rfl, fun _ => ⟨_, .post hmode (Or.inl rfl), rfl⟩⟩
  · cases h

theorem disassemble_load {w : Word} {op : Opcode} (h : disassemble w = some op)
    (hclass : op.insnClass ≠ .pcRelAddr ∧ op.insnClass ≠ .addSubImm) :
    ∃ l, decodeLdr w = some l ∧ disassembleLoad l = some op := by
  unfold disassemble at h
  split at h
  · obtain rfl := Option.some.inj h
    exact (hclass.1 rfl).elim
  · obtain rfl := Option.some.inj h
    exact (hclass.2 rfl).elim
  · exact Option.bind_eq_some_iff.mp h

theorem standardSyntax_disassemble : StandardSyntax disassemble where
  adrp := by
    intro w op h hclass _
    unfold disassemble at h
    split at h
    · rename_i offset rd hdecode
      obtain rfl := Option.some.inj h
      exact ⟨offset, rd, hdecode, fun _ => rfl⟩
    · obtain rfl := Option.some.inj h
      cases hclass
    · obtain ⟨l, -, hload⟩ := Option.bind_eq_some_iff.mp h
      obtain ⟨hkind, -⟩ | ⟨hkind, -⟩ := disassembleLoad_cases hload
      all_goals simp [hclass] at hkind
  add := by
    intro w op h hclass _
    unfold disassemble at h
    split at h
    · obtain rfl := Option.some.inj h
      cases hclass
    · rename_i wide imm rn rd hdecode
      obtain rfl := Option.some.inj h
      exact ⟨wide, imm, rn, rd, hdecode, fun _ => ⟨_, addText_addImmText _ imm, rfl⟩⟩
    · obtain ⟨l, -, hload⟩ := Option.bind_eq_some_iff.mp h
      obtain ⟨hkind, -⟩ | ⟨hkind, -⟩ := disassembleLoad_cases hload
      all_goals simp [hclass] at hkind
  load := by
    intro w op h hclass _
    have hneither : op.insnClass ≠ .pcRelAddr ∧ op.insnClass ≠ .addSubImm := by
      rcases hclass with hclass | hclass <;> simp [hclass]
    obtain ⟨l, hdecode, hload⟩ := disassemble_load h hneither
    obtain ⟨hkind, -⟩ | ⟨-, htext⟩ := disassembleLoad_cases hload
    · simp [hkind] at hclass
    · exact ⟨l, hdecode, htext⟩
  literal := by
    intro w op h hclass _
    have hneither : op.insnClass ≠ .pcRelAddr ∧ op.insnClass ≠ .addSubImm := by simp [hclass]
    obtain ⟨l, hdecode, hload⟩ := disassemble_load h hneither
    obtain ⟨-, offset, hmode, htext⟩ | ⟨hkind, -⟩ := disassembleLoad_cases hload
    · exact ⟨l, offset, hdecode, hmode, htext⟩
    · simp [hclass] at hkind

/-- `adrp x0`, `add x0, x0, #16` and `ldr x0, [x0, #8]`. -/
def chainBlock : List Insn :=
  [⟨0x1000, 0x90000000#32⟩, ⟨0x1004, 0x91004000#32⟩, ⟨0x1008, 0xf9400400#32⟩]

theorem settled_chainBlock : Settled disassemble chainBlock := by
  have hadrp : form disassemble 0x90000000#32 = .adrp 0 := by decide +kernel
  have hadd : form disassemble 0x91004000#32 = .add 0 0 := by decide +kernel
  have hload : form disassemble 0xf9400400#32 = .load 0 0 (.unsignedOffset 8) := by decide +kernel
  intro before insn after hblock
  rcases before with - | ⟨first, - | ⟨second, - | ⟨third, rest⟩⟩⟩
  all_goals
    simp only [chainBlock, List.nil_append, List.cons_append, List.cons.injEq] at hblock
  · obtain ⟨rfl, -⟩ := hblock
    rw [hadrp]
    trivial
  · obtain ⟨rfl, rfl, -⟩ := hblock
    rw [hadd]
    intro e he
    simp only [drift, List.foldl_cons, List.foldl_nil, hadrp, Drift.step,
      Function.update_self] at he
    exact (Option.some.inj he).symm
  · obtain ⟨rfl, rfl, rfl, -⟩ := hblock
    rw [hload]
    intro e he
    simp only [drift, List.foldl_cons, List.foldl_nil, hadrp, hadd, Drift.step,
      Function.update_self] at he
    exact (Option.some.inj he).symm
  · simp at hblock

theorem materializeSound_iff_chain : MaterializeSound disassemble chainBlock :=
  (materializeSound_iff disassemble standardSyntax_disassemble chainBlock (by decide)).mpr
    settled_chainBlock

/-- `adrp x0` and `ldr x1, [x0], #8`: the load reads at the page, and is recorded 8 bytes on. -/
def postIndexedBlock : List Insn := [⟨0x1000, 0x90000000#32⟩, ⟨0x1004, 0xf8408401#32⟩]

theorem materializeSound_fails :
    StandardSyntax disassemble ∧ (postIndexedBlock.map (·.address)).Nodup ∧
      ¬MaterializeSound disassemble postIndexedBlock := by
  refine ⟨standardSyntax_disassemble, by decide, fun hsound => ?_⟩
  have hget : (materializeAddresses disassemble postIndexedBlock).get? 0x1004 = some 0x1008 := by
    decide +kernel
  obtain ⟨before, insn, after, hblock, haddress, hright⟩ := hsound _ _ hget
  have hsame : [⟨0x1000, 0x90000000#32⟩] ++ ⟨0x1004, 0xf8408401#32⟩ :: [] =
      before ++ insn :: after := hblock
  obtain ⟨rfl, rfl⟩ := eq_of_address (by decide) hsame haddress
  have hwrong := hright ⟨fun _ _ _ => 0, fun _ s => s⟩ ⟨fun _ => 0, ⟨false, false, false, false⟩⟩
  revert hwrong
  decide +kernel

end CapaX.Aarch64
