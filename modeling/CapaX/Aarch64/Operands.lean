import CapaX.Isa.A64Load
import CapaX.Rules.Integers

/-
  Operand texts of AArch64 instructions (`aarch64/features.rs`): how the text of a decoded
  instruction is split into operands, and how registers, immediates and addresses are read off it.
  The texts themselves come from the disassembler; the second half says what the standard syntax
  is and that it is read back.
-/

namespace CapaX.Aarch64

open A64 Text

def comma : List Char := [',', ' ']

/-- `str::split` by `comma`: at most so many pieces are split off. -/
def splitPieces : Nat → List Char → List (List Char)
  | 0, s => [s]
  | n + 1, s =>
    match splitOnce comma s with
    | none => [s]
    | some (piece, rest) => piece :: splitPieces n rest

def split (s : List Char) : List (List Char) := splitPieces s.length s

/-- `str::trim_end_matches` of `comma`. -/
def trimEndMatches : Nat → List Char → List Char
  | 0, s => s
  | n + 1, s => if comma.isSuffixOf s then trimEndMatches n (s.take (s.length - 2)) else s

def shiftExtendPrefixes : List (List Char) :=
  ["lsl", "lsr", "asr", "ror", "uxtb", "uxth", "uxtw", "uxtx", "sxtb", "sxth", "sxtx"].map
    String.toList

/-- A shift or an extension belongs to the operand before it. -/
def mergePart (merged : List (List Char)) (part : List Char) : List (List Char) :=
  if shiftExtendPrefixes.any fun p => p.isPrefixOf part then
    match merged.getLast? with
    | some last => merged.dropLast ++ [last ++ comma ++ part]
    | none => merged ++ [part]
  else merged ++ [part]

def splitOperands (text : List Char) : List (List Char) :=
  if text = [] then []
  else
    let parts :=
      if '[' ∈ text then
        let lead := text.takeWhile (· != '[')
        let before := trimEndMatches lead.length lead
        (if before = [] then [] else split before) ++ [text.dropWhile (· != '[')]
      else split text
    parts.foldl mergePart []

def regNum (s : List Char) : Option Nat := do
  let digits ← stripPrefix ['x'] (trim s)
  let n ← (parseRadix 0 (2 ^ 32 - 1) 10 digits).toOption
  if n ≤ 30 then some n.toNat else none

/-- `i64::from_str_radix`. -/
def parseI64 (radix : Nat) (s : List Char) : Option Int :=
  (parseRadix (-2 ^ 63) (2 ^ 63 - 1) radix s).toOption

/-- `strip_prefix("0x")` with `map_or_else`. -/
def parseMagnitude (rest : List Char) : Option Int :=
  match stripPrefix ['0', 'x'] rest with
  | none => parseI64 10 rest
  | some hex => parseI64 16 hex

def parseSigned (s : List Char) : Option Int :=
  match stripPrefix ['-'] (trim s) with
  | none => parseMagnitude (trim s)
  | some rest => (parseMagnitude rest).map fun magnitude => -magnitude

def parseHashImm (s : List Char) : Option Int := (stripPrefix ['#'] (trim s)).bind parseSigned

def parseBareHex (s : List Char) : Option UInt64 := do
  let hex ← stripPrefix ['0', 'x'] (trim s)
  let value ← (parseRadix 0 (2 ^ 64 - 1) 16 hex).toOption
  some (UInt64.ofNat value.toNat)

def stripSuffix (p s : List Char) : Option (List Char) :=
  if p.isSuffixOf s then some (s.take (s.length - p.length)) else none

/-- A base register and an offset, whether or not the base is written back. -/
def parseBracketAny (s : List Char) : Option (List Char × Int) :=
  let s := trim s
  match splitOnce [']', ',', ' ', '#'] s with
  | some (before, imm) => (parseSigned imm).map fun imm => (before.drop 1, imm)
  | none => do
    let s := (stripSuffix ['!'] s).getD s
    let inner ← (stripPrefix ['['] s).bind (stripSuffix [']'])
    match splitOnce [',', ' ', '#'] inner with
    | some (base, imm) => (parseSigned imm).map fun imm => (base, imm)
    | none => some (inner, 0)

/-! ## The standard syntax -/

/-- The text of an immediate: decimal, or hexadecimal after `0x`. -/
def Printed (v : Int) (t : List Char) : Prop := t = decimalText v ∨ t = hexText v

/-- A general register; register 31 is the stack pointer or zero. -/
def generalName (wide sp : Bool) (r : Reg) : List Char :=
  if r = 31#5 then
    (if sp then (if wide then "sp" else "wsp") else (if wide then "xzr" else "wzr")).toList
  else (if wide then 'x' else 'w') :: Nat.toDigits 10 r.toNat

/-- The register that a load writes. -/
def loadName (l : Load) : List Char :=
  if l.simd then (['b', 'h', 's', 'd', 'q'][l.size]?.getD 'q') :: Nat.toDigits 10 l.rt.toNat
  else generalName (l.size == 3) false l.rt

def addressText (address : UInt64) : List Char := hexText address.toNat

/-! ## Splitting -/

section

variable {c : Char} {cs u v : List Char}

theorem splitOnce_append (hc : c ∉ u) :
    splitOnce (c :: cs) (u ++ v) = (splitOnce (c :: cs) v).map fun p => (u ++ p.1, p.2) := by
  induction u with
  | nil => simp
  | cons a u ih =>
    obtain ⟨hne, hu⟩ := not_or.mp (List.mem_cons.not.mp hc)
    have hhead : (c :: cs).isPrefixOf (a :: (u ++ v)) = false := by
      rw [List.isPrefixOf, beq_eq_false_iff_ne.mpr hne, Bool.false_and]
    rw [List.cons_append, splitOnce, hhead, if_neg Bool.false_ne_true, ih hu, Option.map_map]
    rfl

theorem splitOnce_self (hc : c ∉ u) :
    splitOnce (c :: cs) (u ++ (c :: cs ++ v)) = some (u, v) := by
  have hhead : (c :: cs).isPrefixOf (c :: cs ++ v) = true :=
    List.isPrefixOf_iff_prefix.mpr (List.prefix_append _ _)
  rw [splitOnce_append hc, List.cons_append, splitOnce, ← List.cons_append, hhead, if_pos rfl,
    Option.map_some, List.drop_left]
  simp

theorem splitOnce_none (hc : c ∉ u) : splitOnce (c :: cs) u = none := by
  have h : splitOnce (c :: cs) (u ++ []) = (splitOnce (c :: cs) []).map _ := splitOnce_append hc
  rwa [List.append_nil, splitOnce, List.isEmpty_cons, if_neg Bool.false_ne_true] at h

theorem split_single (hu : ',' ∉ u) : split u = [u] := by
  unfold split
  cases hlen : u.length with
  | zero => rfl
  | succ n => rw [splitPieces, comma, splitOnce_none hu]

theorem splitPieces_cons {n : Nat} (hu : ',' ∉ u) :
    splitPieces (n + 1) (u ++ (comma ++ v)) = u :: splitPieces n v := by
  rw [splitPieces]
  show (match splitOnce [',', ' '] (u ++ ([',', ' '] ++ v)) with
    | none => [u ++ (comma ++ v)]
    | some (piece, rest) => piece :: splitPieces n rest) = _
  rw [splitOnce_self hu]

theorem splitPieces_single {n : Nat} (hu : ',' ∉ u) : splitPieces n u = [u] := by
  cases n with
  | zero => rfl
  | succ n => rw [splitPieces, comma, splitOnce_none hu]

theorem length_append_comma : (u ++ (comma ++ v)).length = u.length + v.length + 1 + 1 := by
  simp [comma]
  omega

theorem split_pair (hu : ',' ∉ u) (hv : ',' ∉ v) : split (u ++ (comma ++ v)) = [u, v] := by
  rw [split, length_append_comma, splitPieces_cons hu, splitPieces_single hv]

theorem split_triple {w : List Char} (hu : ',' ∉ u) (hv : ',' ∉ v) (hw : ',' ∉ w) :
    split (u ++ (comma ++ (v ++ (comma ++ w)))) = [u, v, w] := by
  have hlen : (u ++ (comma ++ (v ++ (comma ++ w)))).length =
      u.length + v.length + w.length + 2 + 1 + 1 := by
    rw [length_append_comma, length_append_comma]
    omega
  rw [split, hlen, splitPieces_cons hu, splitPieces_cons hv, splitPieces_single hw]

theorem split_quadruple {w x : List Char} (hu : ',' ∉ u) (hv : ',' ∉ v) (hw : ',' ∉ w)
    (hx : ',' ∉ x) : split (u ++ (comma ++ (v ++ (comma ++ (w ++ (comma ++ x)))))) =
      [u, v, w, x] := by
  have hlen : (u ++ (comma ++ (v ++ (comma ++ (w ++ (comma ++ x)))))).length =
      u.length + v.length + w.length + x.length + 3 + 1 + 1 + 1 := by
    rw [length_append_comma, length_append_comma, length_append_comma]
    omega
  rw [split, hlen, splitPieces_cons hu, splitPieces_cons hv, splitPieces_cons hw,
    splitPieces_single hx]

/-- An operand that begins with no shift or extension. -/
def Plain (part : List Char) : Prop :=
  (shiftExtendPrefixes.any fun p => p.isPrefixOf part) = false

instance : DecidablePred Plain := fun _ => inferInstanceAs (Decidable (_ = _))

theorem foldl_mergePart {parts : List (List Char)} (h : ∀ part ∈ parts, Plain part)
    (merged : List (List Char)) : parts.foldl mergePart merged = merged ++ parts := by
  induction parts generalizing merged with
  | nil => simp
  | cons part parts ih =>
    have hpart : (shiftExtendPrefixes.any fun p => p.isPrefixOf part) = false :=
      h part List.mem_cons_self
    rw [List.foldl_cons, mergePart, hpart, if_neg Bool.false_ne_true,
      ih fun p hp => h p (List.mem_cons_of_mem _ hp), List.append_assoc]
    rfl

end

/-! ## Characters -/

def syntaxChars : List Char := "0123456789abcdefx-".toList

theorem mem_toDigits {radix n : Nat} (hlow : 1 < radix) (hhigh : radix ≤ 16) {c : Char}
    (hc : c ∈ Nat.toDigits radix n) : c ∈ syntaxChars := by
  have hall : ∀ d < 16, Nat.digitChar d ∈ syntaxChars := by decide
  induction n using Nat.strongRecOn with
  | ind n ih =>
    rw [Nat.toDigits_eq_if hlow] at hc
    split at hc
    · rw [List.mem_singleton.mp hc]
      exact hall n (by omega)
    · rcases List.mem_append.mp hc with hc | hc
      · exact ih _ (Nat.div_lt_self (by omega) hlow) hc
      · rw [List.mem_singleton.mp hc]
        exact hall _ ((Nat.mod_lt n (by omega)).trans_le hhigh)

theorem decimalText_cases (v : Int) :
    (0 ≤ v ∧ decimalText v = Nat.toDigits 10 v.natAbs) ∨
      (v < 0 ∧ decimalText v = '-' :: Nat.toDigits 10 v.natAbs) := by
  unfold decimalText
  cases v with
  | ofNat n =>
    left
    refine ⟨Int.natCast_nonneg n, ?_⟩
    show (Nat.repr n).toList = _
    rw [Nat.toList_repr]
    rfl
  | negSucc n =>
    right
    refine ⟨Int.negSucc_lt_zero n, ?_⟩
    show ("-" ++ Nat.repr (n + 1)).toList = _
    rw [String.toList_append, Nat.toList_repr]
    rfl

theorem Printed.mem {v : Int} {t : List Char} (h : Printed v t) {c : Char} (hc : c ∈ t) :
    c ∈ syntaxChars := by
  have hdigits : ∀ radix, 1 < radix → radix ≤ 16 → ∀ n, c ∈ Nat.toDigits radix n →
      c ∈ syntaxChars := fun radix hlow hhigh n hn => mem_toDigits hlow hhigh hn
  rcases h with rfl | rfl
  · rcases decimalText_cases v with ⟨-, ht⟩ | ⟨-, ht⟩
    · rw [ht] at hc
      exact hdigits 10 (by decide) (by decide) _ hc
    · rw [ht] at hc
      rcases List.mem_cons.mp hc with rfl | hc
      · decide
      · exact hdigits 10 (by decide) (by decide) _ hc
  · unfold hexText at hc
    rcases List.mem_append.mp hc with hc | hc
    · split at hc
      · rw [List.mem_singleton.mp hc]
        decide
      · exact absurd hc List.not_mem_nil
    · rcases List.mem_cons.mp hc with rfl | hc
      · decide
      · rcases List.mem_cons.mp hc with rfl | hc
        · decide
        · exact hdigits 16 (by decide) (by decide) _ hc

theorem Printed.not_mem {v : Int} {t : List Char} (h : Printed v t) {c : Char}
    (hc : c ∉ syntaxChars) : c ∉ t := fun hmem => hc (h.mem hmem)

/-! ## Numbers -/

theorem parseRadix_toDigits {lo hi : Int} {radix n : Nat} (hlow : 1 < radix) (hhigh : radix ≤ 16)
    (hlo : lo ≤ 0) (hhi : (n : Int) ≤ hi) :
    parseRadix lo hi radix (Nat.toDigits radix n) = .ok n := by
  have hnumeral := numeral_toDigits hlow hhigh n
  have hdigits : parseDigits lo hi radix false (Nat.toDigits radix n) 0 = .ok n := by
    have hfrom : digitsFrom radix (Nat.toDigits radix n) 0 = some n := by
      rwa [numeral, if_neg Nat.toDigits_ne_nil] at hnumeral
    have hradix : 0 < radix := by omega
    have hpos : 0 ≤ hi := by omega
    have hspec : parseDigits lo hi radix false (Nat.toDigits radix n) (withSign false 0) = .ok n ∧
        _ := (parseDigits_eq_ok hradix hlo hpos).mpr
      ⟨n, hfrom, rfl, by simp only [withSign]; omega⟩
    exact hspec.1
  cases hd : Nat.toDigits radix n with
  | nil => exact absurd hd Nat.toDigits_ne_nil
  | cons c cs =>
    rw [hd] at hdigits hnumeral
    have hsign : ∀ a : Char, a = '+' ∨ a = '-' → c ≠ a := by
      intro a ha hc
      subst hc
      rw [numeral_cons_eq_none (toDigit_sign ha)] at hnumeral
      cases hnumeral
    have hplus := hsign '+' (Or.inl rfl)
    have hminus := hsign '-' (Or.inr rfl)
    unfold parseRadix
    split
    · rename_i h; cases h
    · rename_i h; exact absurd (List.cons.inj h).1 hplus
    · rename_i h; exact absurd (List.cons.inj h).1 hminus
    · rename_i h; exact absurd (List.cons.inj h).1 hplus
    · rename_i h; exact absurd (List.cons.inj h).1 hminus
    · exact hdigits

theorem stripPrefix_append (p s : List Char) : stripPrefix p (p ++ s) = some s :=
  stripPrefix_eq_some.mpr rfl

theorem stripPrefix_ne {a b : Char} (hab : a ≠ b) (p s : List Char) :
    stripPrefix (a :: p) (b :: s) = none := by
  rw [stripPrefix, if_neg]
  simp [hab]

theorem toDigits_head {radix n : Nat} (hlow : 1 < radix) (hhigh : radix ≤ 16) {a : Char}
    (ha : toDigit radix a = none) (cs : List Char) : Nat.toDigits radix n ≠ a :: cs := by
  intro h
  have hnumeral := numeral_toDigits hlow hhigh n
  rw [h, numeral_cons_eq_none ha] at hnumeral
  cases hnumeral

theorem parseMagnitude_decimal {n : Nat} (hn : n < 2 ^ 63) :
    parseMagnitude (Nat.toDigits 10 n) = some n := by
  have hnone : stripPrefix ['0', 'x'] (Nat.toDigits 10 n) = none := by
    cases h : stripPrefix ['0', 'x'] (Nat.toDigits 10 n) with
    | none => rfl
    | some rest =>
      have hnumeral := numeral_toDigits (by decide : 1 < 10) (by decide) n
      rw [stripPrefix_eq_some.mp h] at hnumeral
      have hx : toDigit 10 'x' = none := by decide
      have hzero : toDigit 10 '0' = some 0 := by decide
      simp [numeral, digitsFrom, hx, hzero] at hnumeral
  rw [parseMagnitude, hnone]
  show (parseRadix (-2 ^ 63) (2 ^ 63 - 1) 10 _).toOption = _
  rw [parseRadix_toDigits (by decide) (by decide) (by decide) (by omega)]
  rfl

theorem parseMagnitude_hex {n : Nat} (hn : n < 2 ^ 63) :
    parseMagnitude ('0' :: 'x' :: Nat.toDigits 16 n) = some n := by
  have hstrip : stripPrefix ['0', 'x'] ('0' :: 'x' :: Nat.toDigits 16 n) =
      some (Nat.toDigits 16 n) := stripPrefix_append _ _
  rw [parseMagnitude, hstrip]
  show (parseRadix (-2 ^ 63) (2 ^ 63 - 1) 16 _).toOption = _
  rw [parseRadix_toDigits (by decide) (by decide) (by decide) (by omega)]
  rfl

theorem parseSigned_minus {rest : List Char} {n : Nat} (htrim : trim ('-' :: rest) = '-' :: rest)
    (h : parseMagnitude rest = some n) : parseSigned ('-' :: rest) = some (-(n : Int)) := by
  have hstrip : stripPrefix ['-'] ('-' :: rest) = some rest := stripPrefix_append _ _
  rw [parseSigned, htrim, hstrip]
  dsimp only
  rw [h]
  rfl

theorem parseSigned_plain {s : List Char} {n : Nat} (htrim : trim s = s)
    (hplain : stripPrefix ['-'] s = none) (h : parseMagnitude s = some n) :
    parseSigned s = some (n : Int) := by
  rw [parseSigned, htrim, hplain]
  exact h

/-- A number is read back, whichever way it is printed. -/
theorem Printed.parseSigned {v : Int} {t : List Char} (h : Printed v t)
    (hv : v.natAbs < 2 ^ 63) : parseSigned t = some v := by
  rcases h with rfl | rfl
  · have htrim := trim_decimalText v
    rcases decimalText_cases v with ⟨hsign, ht⟩ | ⟨hsign, ht⟩
    · rw [ht] at htrim ⊢
      have hvalue : v = (v.natAbs : Int) := by omega
      have hplain : stripPrefix ['-'] (Nat.toDigits 10 v.natAbs) = none := by
        cases hs : stripPrefix ['-'] (Nat.toDigits 10 v.natAbs) with
        | none => rfl
        | some rest =>
          have hminus : toDigit 10 '-' = none := by decide
          exact absurd (stripPrefix_eq_some.mp hs)
            (toDigits_head (by decide) (by decide) hminus rest)
      rw [parseSigned_plain htrim hplain (parseMagnitude_decimal hv), ← hvalue]
    · rw [ht] at htrim ⊢
      have hvalue : v = -(v.natAbs : Int) := by omega
      rw [parseSigned_minus htrim (parseMagnitude_decimal hv), ← hvalue]
  · have htrim := trim_hexText v
    by_cases hsign : v < 0
    · have ht : hexText v = '-' :: '0' :: 'x' :: Nat.toDigits 16 v.natAbs := by
        rw [hexText, if_pos hsign]
        rfl
      rw [ht] at htrim ⊢
      have hvalue : v = -(v.natAbs : Int) := by omega
      rw [parseSigned_minus htrim (parseMagnitude_hex hv), ← hvalue]
    · have ht : hexText v = '0' :: 'x' :: Nat.toDigits 16 v.natAbs := by
        rw [hexText, if_neg hsign]
        rfl
      rw [ht] at htrim ⊢
      have hvalue : v = (v.natAbs : Int) := by omega
      have hplain := stripPrefix_ne (by decide : '-' ≠ '0') [] ('x' :: Nat.toDigits 16 v.natAbs)
      rw [parseSigned_plain htrim hplain (parseMagnitude_hex hv), ← hvalue]

theorem parseBareHex_addressText (address : UInt64) :
    parseBareHex (addressText address) = some address := by
  have htrim : trim (addressText address) = addressText address := trim_hexText _
  have ht : addressText address = ['0', 'x'] ++ Nat.toDigits 16 address.toNat := by
    unfold addressText hexText
    rw [if_neg (by omega)]
    rfl
  have hlt := address.toNat_lt
  rw [parseBareHex, htrim, ht, stripPrefix_append]
  show ((parseRadix 0 (2 ^ 64 - 1) 16 (Nat.toDigits 16 address.toNat)).toOption.bind _) = _
  rw [parseRadix_toDigits (by decide) (by decide) (by decide) (by omega)]
  show some (UInt64.ofNat ((address.toNat : Int)).toNat) = _
  rw [Int.toNat_natCast, UInt64.ofNat_toNat]

/-! ## Names -/

/-- Only the registers X0 to X30 are read. -/
theorem regNum_generalName : ∀ (wide sp : Bool) (r : Reg), regNum (generalName wide sp r) =
    if wide = true ∧ r ≠ 31#5 then some r.toNat else none := by
  decide +kernel

theorem generalName_chars : ∀ (wide sp : Bool) (r : Reg), ',' ∉ generalName wide sp r ∧
    '[' ∉ generalName wide sp r ∧ ']' ∉ generalName wide sp r ∧ generalName wide sp r ≠ [] ∧
    Plain (generalName wide sp r) := by
  decide +kernel

theorem simdName_facts : ∀ letter ∈ ['b', 'h', 's', 'd', 'q'], ∀ r : Reg,
    regNum (letter :: Nat.toDigits 10 r.toNat) = none ∧
      ',' ∉ letter :: Nat.toDigits 10 r.toNat ∧ '[' ∉ letter :: Nat.toDigits 10 r.toNat ∧
      Plain (letter :: Nat.toDigits 10 r.toNat) := by
  simp only [List.forall_mem_cons, List.not_mem_nil, false_imp_iff, implies_true, and_true]
  decide +kernel

/-- What is read of the register that a load writes. -/
theorem loadName_facts (l : Load) :
    regNum (loadName l) =
      (if l.simd = false ∧ l.size = 3 ∧ l.rt ≠ 31#5 then some l.rt.toNat else none) ∧
    ',' ∉ loadName l ∧ '[' ∉ loadName l ∧ Plain (loadName l) ∧ loadName l ≠ [] := by
  unfold loadName
  cases hsimd : l.simd with
  | true =>
    have hletter : ∀ size : Nat, (['b', 'h', 's', 'd', 'q'][size]?.getD 'q') ∈
        ['b', 'h', 's', 'd', 'q'] := by
      intro size
      cases h : ['b', 'h', 's', 'd', 'q'][size]? with
      | none => decide
      | some letter => exact List.mem_of_getElem? h
    obtain ⟨hnum, hcomma, hbracket, hplain⟩ := simdName_facts _ (hletter l.size) l.rt
    exact ⟨by simpa using hnum, hcomma, hbracket, hplain, List.cons_ne_nil _ _⟩
  | false =>
    obtain ⟨hcomma, hbracket, -, hne, hplain⟩ := generalName_chars (l.size == 3) false l.rt
    refine ⟨?_, hcomma, hbracket, hplain, hne⟩
    rw [if_neg Bool.false_ne_true, regNum_generalName]
    simp

/-! ## Texts -/

theorem trim_of_ends {s : List Char} (hhead : ∀ c ∈ s.head?, isWhitespace c = false)
    (hlast : ∀ c ∈ s.getLast?, isWhitespace c = false) : trim s = s := by
  have hdrop : ∀ l : List Char, (∀ c ∈ l.head?, isWhitespace c = false) →
      l.dropWhile isWhitespace = l := by
    intro l hl
    cases l with
    | nil => rfl
    | cons c cs => rw [List.dropWhile_cons, hl c rfl, if_neg Bool.false_ne_true]
  rw [trim, hdrop s hhead, hdrop s.reverse (by rwa [List.head?_reverse]), List.reverse_reverse]

section

variable {t name base : List Char} {v : Int}

theorem not_isWhitespace_of_syntaxChars : ∀ c ∈ syntaxChars, isWhitespace c = false := by
  have hall : syntaxChars.all (fun c => !isWhitespace c) = true := by decide
  intro c hc
  simpa using List.all_eq_true.mp hall c hc

theorem Printed.ne_nil (h : Printed v t) : t ≠ [] := by
  rcases h with rfl | rfl
  · rcases decimalText_cases v with ⟨-, ht⟩ | ⟨-, ht⟩
    · rw [ht]
      exact Nat.toDigits_ne_nil
    · rw [ht]
      exact List.cons_ne_nil _ _
  · exact fun h => by simp [hexText] at h

theorem Printed.getLast (h : Printed v t) (lead : List Char) :
    ∀ c ∈ (lead ++ t).getLast?, isWhitespace c = false := by
  intro c hc
  rw [List.getLast?_append_of_ne_nil _ h.ne_nil] at hc
  exact not_isWhitespace_of_syntaxChars c (h.mem (List.mem_of_getLast? hc))

theorem parseHashImm_printed (h : Printed v t) (hv : v.natAbs < 2 ^ 63) :
    parseHashImm ('#' :: t) = some v := by
  have htrim : trim ('#' :: t) = '#' :: t := by
    apply trim_of_ends
    · intro c hc
      obtain rfl := Option.some.inj hc
      decide
    · exact h.getLast ['#']
  have hstrip : stripPrefix ['#'] ('#' :: t) = some t := stripPrefix_append ['#'] t
  rw [parseHashImm, htrim, hstrip]
  exact h.parseSigned hv

theorem plain_hash (s : List Char) : Plain ('#' :: s) := rfl

theorem plain_bracket (s : List Char) : Plain ('[' :: s) := rfl

theorem plain_zero (s : List Char) : Plain ('0' :: s) := rfl

theorem splitOperands_flat {text : List Char} (hne : text ≠ []) (h : '[' ∉ text) :
    splitOperands text = (split text).foldl mergePart [] := by
  rw [splitOperands, if_neg hne]
  simp only [if_neg h]

theorem trimEndMatches_self {n : Nat} (hcomma : ',' ∉ name) : trimEndMatches n name = name := by
  cases n with
  | zero => rfl
  | succ n =>
    rw [trimEndMatches, if_neg]
    intro h
    obtain ⟨lead, rfl⟩ := List.isSuffixOf_iff_suffix.mp h
    exact hcomma (by simp [comma])

/-- A register and an address in brackets. -/
theorem splitOperands_bracket (hcomma : ',' ∉ name) (hbracket : '[' ∉ name) (hne : name ≠ [])
    (hplain : Plain name) (rest : List Char) :
    splitOperands (name ++ (comma ++ '[' :: rest)) = [name, '[' :: rest] := by
  have hlead : ∀ c ∈ name ++ comma, (c != '[') = true := by
    intro c hc
    rw [bne_iff_ne]
    intro hc'
    subst hc'
    rcases List.mem_append.mp hc with hc | hc
    · exact hbracket hc
    · exact absurd hc (by decide)
  have hassoc : name ++ (comma ++ '[' :: rest) = (name ++ comma) ++ '[' :: rest :=
    (List.append_assoc ..).symm
  have htake : (name ++ (comma ++ '[' :: rest)).takeWhile (· != '[') = name ++ comma := by
    rw [hassoc, List.takeWhile_append_of_pos hlead]
    simp
  have hdrop : (name ++ (comma ++ '[' :: rest)).dropWhile (· != '[') = '[' :: rest := by
    rw [hassoc, List.dropWhile_append_of_pos hlead]
    simp
  have htrim : trimEndMatches (name ++ comma).length (name ++ comma) = name := by
    have hlen : (name ++ comma).length = name.length + 1 + 1 := by simp [comma]
    have hsuffix : comma.isSuffixOf (name ++ comma) = true :=
      List.isSuffixOf_iff_suffix.mpr (List.suffix_append _ _)
    rw [hlen, trimEndMatches, hsuffix, if_pos rfl, hlen]
    show trimEndMatches _ ((name ++ comma).take name.length) = name
    rw [List.take_left]
    exact trimEndMatches_self hcomma
  rw [splitOperands, if_neg (by simp [hne])]
  simp only [htake, hdrop, htrim, if_neg hne, split_single hcomma]
  rw [if_pos (by simp)]
  exact foldl_mergePart (by simp [hplain, plain_bracket rest]) []

/-! ## Addresses in brackets -/

theorem stripSuffix_append (p s : List Char) : stripSuffix p (s ++ p) = some s := by
  rw [stripSuffix, if_pos (List.isSuffixOf_iff_suffix.mpr (List.suffix_append s p)),
    List.length_append, Nat.add_sub_cancel, List.take_left]

theorem stripSuffix_ne {a b : Char} (hab : a ≠ b) (s : List Char) :
    stripSuffix [a] (s ++ [b]) = none := by
  rw [stripSuffix, if_neg]
  intro h
  obtain ⟨lead, hlead⟩ := List.isSuffixOf_iff_suffix.mp h
  exact hab (List.singleton_inj.mp (List.append_inj_right' hlead rfl))

theorem parseBracketAny_post (hclose : ']' ∉ base) (h : Printed v t)
    (hv : v.natAbs < 2 ^ 63) :
    parseBracketAny ('[' :: (base ++ ([']', ',', ' ', '#'] ++ t))) = some (base, v) := by
  have htrim : trim ('[' :: (base ++ ([']', ',', ' ', '#'] ++ t))) =
      '[' :: (base ++ ([']', ',', ' ', '#'] ++ t)) := by
    apply trim_of_ends
    · intro c hc
      obtain rfl := Option.some.inj hc
      decide
    · have hlast := h.getLast ('[' :: (base ++ [']', ',', ' ', '#']))
      simpa using hlast
  have hnot : ']' ∉ '[' :: base := by simp [hclose]
  have hsplit : splitOnce [']', ',', ' ', '#'] ('[' :: (base ++ ([']', ',', ' ', '#'] ++ t))) =
      some ('[' :: base, t) := splitOnce_self hnot
  rw [parseBracketAny]
  simp only [htrim, hsplit, h.parseSigned hv]
  rfl

/-- Brackets that close at the end, with `!` behind them or without. -/
theorem parseBracketAny_closed {inner : List Char} (hclose : ']' ∉ inner) (writeback : Bool) :
    parseBracketAny ('[' :: (inner ++ (']' :: if writeback then ['!'] else []))) =
      match splitOnce [',', ' ', '#'] inner with
      | some (base, imm) => (parseSigned imm).map fun imm => (base, imm)
      | none => some (inner, 0) := by
  have htrim : trim ('[' :: (inner ++ (']' :: if writeback then ['!'] else []))) =
      '[' :: (inner ++ (']' :: if writeback then ['!'] else [])) := by
    apply trim_of_ends
    · intro c hc
      obtain rfl := Option.some.inj hc
      decide
    · cases writeback with
      | false => simp [List.getLast?_cons, List.getLast?_append]; decide
      | true => simp [List.getLast?_cons, List.getLast?_append]; decide
  have hnot : ']' ∉ '[' :: inner := by simp [hclose]
  have hsplit : splitOnce [']', ',', ' ', '#']
      ('[' :: (inner ++ (']' :: if writeback then ['!'] else []))) = none := by
    rw [← List.cons_append, splitOnce_append hnot]
    cases writeback with
    | false => rfl
    | true => rfl
  have hstrip : (stripSuffix ['!']
        ('[' :: (inner ++ (']' :: if writeback then ['!'] else [])))).getD
      ('[' :: (inner ++ (']' :: if writeback then ['!'] else []))) = '[' :: (inner ++ [']']) := by
    cases writeback with
    | false =>
      have hnone := stripSuffix_ne (by decide : '!' ≠ ']') ('[' :: inner)
      rw [List.cons_append] at hnone
      rw [if_neg Bool.false_ne_true, hnone, Option.getD_none]
    | true =>
      have hsome := stripSuffix_append ['!'] ('[' :: (inner ++ [']']))
      rw [List.cons_append, List.append_assoc] at hsome
      rw [if_pos rfl]
      exact congrArg (Option.getD · _) hsome
  have hopen : stripPrefix ['['] ('[' :: (inner ++ [']'])) = some (inner ++ [']']) :=
    stripPrefix_append ['['] _
  rw [parseBracketAny]
  simp only [htrim, hsplit, hstrip, hopen, Option.bind_some, stripSuffix_append,
    Option.bind_eq_bind]

theorem parseBracketAny_bare (hcomma : ',' ∉ base) (hclose : ']' ∉ base) (writeback : Bool) :
    parseBracketAny ('[' :: (base ++ (']' :: if writeback then ['!'] else []))) =
      some (base, 0) := by
  rw [parseBracketAny_closed hclose, splitOnce_none hcomma]

theorem parseBracketAny_imm (hcomma : ',' ∉ base) (hclose : ']' ∉ base) (h : Printed v t)
    (hv : v.natAbs < 2 ^ 63) (writeback : Bool) :
    parseBracketAny ('[' :: ((base ++ ([',', ' ', '#'] ++ t)) ++
      (']' :: if writeback then ['!'] else []))) = some (base, v) := by
  have hinner : ']' ∉ base ++ ([',', ' ', '#'] ++ t) := by
    have ht := h.not_mem (by decide : ']' ∉ syntaxChars)
    simp [hclose, ht]
  rw [parseBracketAny_closed hinner, splitOnce_self hcomma]
  simp only [h.parseSigned hv, Option.map_some]

end

/-! ## Whole texts -/

theorem printed_addressText (address : UInt64) : Printed address.toNat (addressText address) :=
  Or.inr rfl

theorem plain_addressText (address : UInt64) : Plain (addressText address) := by
  have ht : addressText address = '0' :: 'x' :: Nat.toDigits 16 address.toNat := by
    unfold addressText hexText
    rw [if_neg (by omega)]
    rfl
  rw [ht]
  exact plain_zero _

theorem splitOperands_address {name : List Char} (hcomma : ',' ∉ name) (hbracket : '[' ∉ name)
    (hne : name ≠ []) (hplain : Plain name) (address : UInt64) :
    splitOperands (name ++ (comma ++ addressText address)) = [name, addressText address] := by
  have hprinted := printed_addressText address
  rw [splitOperands_flat (by simp [hne]), split_pair hcomma (hprinted.not_mem (by decide)),
    foldl_mergePart (by simp [hplain, plain_addressText])]
  · rfl
  · have hopen := hprinted.not_mem (by decide : '[' ∉ syntaxChars)
    simp [hbracket, hopen, comma]

section

variable {first second t amount : List Char} {v w : Int}

theorem splitOperands_imm (hfirst : ',' ∉ first ∧ '[' ∉ first ∧ first ≠ [] ∧ Plain first)
    (hsecond : ',' ∉ second ∧ '[' ∉ second ∧ Plain second) (h : Printed v t) :
    splitOperands (first ++ (comma ++ (second ++ (comma ++ '#' :: t)))) =
      [first, second, '#' :: t] := by
  have hcomma := h.not_mem (by decide : ',' ∉ syntaxChars)
  have hopen := h.not_mem (by decide : '[' ∉ syntaxChars)
  rw [splitOperands_flat (by simp [hfirst.2.2.1]),
    split_triple hfirst.1 hsecond.1 (by simp [hcomma]), foldl_mergePart]
  · rfl
  · simp [hfirst.2.2.2, hsecond.2.2, plain_hash t]
  · simp [hfirst.2.1, hsecond.2.1, hopen, comma]

theorem splitOperands_shifted (hfirst : ',' ∉ first ∧ '[' ∉ first ∧ first ≠ [] ∧ Plain first)
    (hsecond : ',' ∉ second ∧ '[' ∉ second ∧ Plain second) (h : Printed v t)
    (hamount : Printed w amount) :
    splitOperands (first ++ (comma ++ (second ++ (comma ++ ('#' :: t ++ (comma ++
      (['l', 's', 'l', ' ', '#'] ++ amount))))))) =
      [first, second, '#' :: t ++ comma ++ (['l', 's', 'l', ' ', '#'] ++ amount)] := by
  have hcomma := h.not_mem (by decide : ',' ∉ syntaxChars)
  have hopen := h.not_mem (by decide : '[' ∉ syntaxChars)
  have hcomma' := hamount.not_mem (by decide : ',' ∉ syntaxChars)
  have hopen' := hamount.not_mem (by decide : '[' ∉ syntaxChars)
  have hlead : [first, second, '#' :: t].foldl mergePart [] = [first, second, '#' :: t] :=
    foldl_mergePart (by simp [hfirst.2.2.2, hsecond.2.2, plain_hash t]) []
  rw [splitOperands_flat (by simp [hfirst.2.2.1]),
    split_quadruple hfirst.1 hsecond.1 (by simp [hcomma]) (by simp [hcomma'])]
  · show mergePart ([first, second, '#' :: t].foldl mergePart [])
      (['l', 's', 'l', ' ', '#'] ++ amount) = _
    rw [hlead]
    rfl
  · simp [hfirst.2.1, hsecond.2.1, hopen, hopen', comma]

end

/-! ## What is no number -/

theorem parseDigits_mem {lo hi : Int} {radix : Nat} {negative : Bool} {s : List Char}
    {acc v : Int} (h : parseDigits lo hi radix negative s acc = .ok v) :
    ∀ c ∈ s, toDigit radix c ≠ none := by
  induction s generalizing acc with
  | nil => exact fun c hc => absurd hc List.not_mem_nil
  | cons c cs ih =>
    unfold parseDigits at h
    split at h
    · cases h
    · rename_i d hd
      generalize (if negative then acc * (radix : Int) - d else acc * radix + d) = acc' at h
      dsimp only at h
      split at h
      · cases h
      · split at h
        · cases h
        · refine List.forall_mem_cons.mpr ⟨?_, ih h⟩
          rw [hd]
          exact Option.some_ne_none d

theorem not_comma_of_parseRadix {lo hi : Int} {radix : Nat} {s : List Char} {v : Int}
    (h : parseRadix lo hi radix s = .ok v) : ',' ∉ s := by
  have hcomma : toDigit radix ',' = none := rfl
  have hdigits : ∀ {negative : Bool} {s : List Char},
      parseDigits lo hi radix negative s 0 = .ok v → ',' ∉ s :=
    fun h hmem => parseDigits_mem h ',' hmem hcomma
  unfold parseRadix at h
  split at h
  · cases h
  · cases h
  · cases h
  · simpa using hdigits h
  · split at h
    · simpa using hdigits h
    · cases h
  · exact hdigits h

theorem mem_trim {c : Char} {s : List Char} (hc : c ∈ s) (hspace : isWhitespace c = false) :
    c ∈ trim s := by
  have hkept : ∀ l : List Char, c ∈ l → c ∈ l.dropWhile isWhitespace := by
    intro l hl
    rw [← List.takeWhile_append_dropWhile (p := isWhitespace) (l := l)] at hl
    rcases List.mem_append.mp hl with hl | hl
    · rw [List.all_eq_true.mp List.all_takeWhile c hl] at hspace
      cases hspace
    · exact hl
  exact List.mem_reverse.mpr (hkept _ (List.mem_reverse.mpr (hkept s hc)))

theorem parseMagnitude_comma {s : List Char} (h : ',' ∈ s) : parseMagnitude s = none := by
  have hnone : ∀ radix s, ',' ∈ s → parseI64 radix s = none := by
    intro radix s hs
    unfold parseI64
    cases hparse : parseRadix (-2 ^ 63) (2 ^ 63 - 1) radix s with
    | error e => rfl
    | ok v => exact absurd hs (not_comma_of_parseRadix hparse)
  unfold parseMagnitude
  split
  · exact hnone 10 s h
  · rename_i hex hstrip
    rw [stripPrefix_eq_some.mp hstrip] at h
    exact hnone 16 hex (by simpa using h)

theorem parseHashImm_comma {s : List Char} (h : ',' ∈ s) : parseHashImm s = none := by
  have hsigned : ∀ s, ',' ∈ s → parseSigned s = none := by
    intro s hs
    have htrim := mem_trim hs (by decide)
    unfold parseSigned
    split
    · exact parseMagnitude_comma htrim
    · rename_i rest hstrip
      rw [stripPrefix_eq_some.mp hstrip] at htrim
      rw [parseMagnitude_comma (by simpa using htrim)]
      rfl
  unfold parseHashImm
  cases hstrip : stripPrefix ['#'] (trim s) with
  | none => rfl
  | some rest =>
    have htrim := mem_trim h (by decide)
    rw [stripPrefix_eq_some.mp hstrip] at htrim
    exact hsigned rest (by simpa using htrim)

end CapaX.Aarch64
