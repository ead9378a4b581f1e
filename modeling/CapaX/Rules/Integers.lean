import CapaX.Rules.Grammar

/-
  The integers of rules (`parse_int` in `rules/grammar.rs`) against the numbers their texts
  denote. `parseRadix` is read once as a language (`parseI128_eq_ok`): an optional sign and a
  numeral. Without the `0x` branch, which hands a sign after the prefix on to it, `parse_int`
  accepts the texts of `Denotes`.
-/

namespace CapaX.Text

/-! ## Numerals -/

/-- The value of a row of digits, read on from `acc`. -/
def digitsFrom (radix : Nat) : List Char → Nat → Option Nat
  | [], acc => some acc
  | c :: cs, acc => (toDigit radix c).bind fun d => digitsFrom radix cs (acc * radix + d)

/-- The value of a non-empty row of digits. -/
def numeral (radix : Nat) (digits : List Char) : Option Nat :=
  if digits = [] then none else digitsFrom radix digits 0

theorem digitsFrom_append (radix : Nat) (ds es : List Char) (acc : Nat) :
    digitsFrom radix (ds ++ es) acc = (digitsFrom radix ds acc).bind (digitsFrom radix es) := by
  induction ds generalizing acc with
  | nil => rfl
  | cons c ds ih =>
    simp only [List.cons_append, digitsFrom, Option.bind_assoc]
    congr 1
    funext d
    exact ih _

theorem toDigit_digitChar {radix d : Nat} (hradix : radix ≤ 16) (hd : d < radix) :
    toDigit radix (Nat.digitChar d) = some d := by
  have hall : ∀ d < 16, hexDigit? (Nat.digitChar d) = some d := by decide
  rw [toDigit, hall d (by omega)]
  simp [hd]

theorem numeral_toDigits {radix : Nat} (hlow : 1 < radix) (hhigh : radix ≤ 16) (n : Nat) :
    numeral radix (Nat.toDigits radix n) = some n := by
  rw [numeral, if_neg Nat.toDigits_ne_nil]
  induction n using Nat.strongRecOn with
  | ind n ih =>
    rw [Nat.toDigits_eq_if hlow]
    split
    · next hn => simp [digitsFrom, toDigit_digitChar hhigh hn]
    · next hn =>
      have hquot : n / radix < n := Nat.div_lt_self (by omega) hlow
      have hrem : n % radix < radix := Nat.mod_lt n (by omega)
      rw [digitsFrom_append, ih _ hquot]
      simp [digitsFrom, toDigit_digitChar hhigh hrem, Nat.div_add_mod']

/-! ## Signed parsing -/

section

variable {lo hi : Int} {radix : Nat}

/-- A number of the given sign. -/
def withSign : Bool → Nat → Int
  | false, n => n
  | true, n => -(n : Int)

theorem withSign_digit (negative : Bool) (n radix d : Nat) :
    (if negative then withSign negative n * radix - d else withSign negative n * radix + d) =
      withSign negative (n * radix + d) := by
  cases negative with
  | false => simp [withSign]
  | true =>
    simp only [withSign, if_true]
    push_cast
    rw [Int.neg_mul, Int.neg_add, Int.sub_eq_add_neg]

/-- What lies between a number that fits and zero fits. -/
theorem withSign_fits (hlo : lo ≤ 0) (hhi : 0 ≤ hi) {negative : Bool} {m n : Nat} (hle : m ≤ n)
    (h : lo ≤ withSign negative n ∧ withSign negative n ≤ hi) :
    lo ≤ withSign negative m ∧ withSign negative m ≤ hi := by
  cases negative with
  | false =>
    simp only [withSign] at h ⊢
    omega
  | true =>
    simp only [withSign] at h ⊢
    omega

/-- The digits only move the number away from zero, so it fits all the way when it fits at the
    end. -/
theorem parseDigits_eq_ok (hradix : 0 < radix) (hlo : lo ≤ 0) (hhi : 0 ≤ hi) {negative : Bool}
    {digits : List Char} {acc : Nat} {v : Int} :
    parseDigits lo hi radix negative digits (withSign negative acc) = .ok v ∧
        (lo ≤ withSign negative acc ∧ withSign negative acc ≤ hi) ↔
      ∃ n : Nat, digitsFrom radix digits acc = some n ∧ v = withSign negative n ∧
        (lo ≤ withSign negative n ∧ withSign negative n ≤ hi) := by
  induction digits generalizing acc with
  | nil =>
    simp only [parseDigits, digitsFrom, Except.ok.injEq, Option.some.injEq]
    constructor
    · rintro ⟨rfl, hacc⟩
      exact ⟨acc, rfl, rfl, hacc⟩
    · rintro ⟨n, rfl, rfl, hn⟩
      exact ⟨rfl, hn⟩
  | cons c cs ih =>
    unfold parseDigits digitsFrom
    cases toDigit radix c with
    | none => simp
    | some d =>
      have hgrows : acc ≤ acc * radix + d :=
        (Nat.le_mul_of_pos_right acc hradix).trans (by omega)
      simp only [Option.bind_some, withSign_digit]
      rw [← ih]
      constructor
      · intro h
        obtain ⟨h, hacc⟩ := h
        split at h
        · cases h
        · split at h
          · cases h
          · exact ⟨h, by omega⟩
      · intro h
        obtain ⟨h, hnext⟩ := h
        rw [if_neg (by omega), if_neg (by omega)]
        exact ⟨h, withSign_fits hlo hhi hgrows hnext⟩

end

def FitsI128 (v : Int) : Prop := -2 ^ 127 ≤ v ∧ v ≤ 2 ^ 127 - 1

/-- An optional sign and a numeral. -/
inductive Signed (radix : Nat) : List Char → Int → Prop
  | plain {digits n} (h : numeral radix digits = some n) : Signed radix digits n
  | plus {digits n} (h : numeral radix digits = some n) : Signed radix ('+' :: digits) n
  | minus {digits n} (h : numeral radix digits = some n) : Signed radix ('-' :: digits) (-(n : Int))

theorem numeral_cons_eq_none {radix : Nat} {c : Char} {digits : List Char}
    (h : toDigit radix c = none) : numeral radix (c :: digits) = none := by
  simp [numeral, digitsFrom, h]

theorem toDigit_sign {radix : Nat} {c : Char} (hc : c = '+' ∨ c = '-') :
    toDigit radix c = none := by
  rcases hc with rfl | rfl <;> rfl

/-- Digits after what has been read of the text: those of a numeral that fits. -/
theorem parseDigits_start {radix : Nat} (hradix : 0 < radix) {negative : Bool}
    {digits : List Char} (hne : digits ≠ []) {v : Int} :
    parseDigits (-2 ^ 127) (2 ^ 127 - 1) radix negative digits 0 = .ok v ↔
      FitsI128 v ∧ ∃ n : Nat, numeral radix digits = some n ∧ v = withSign negative n := by
  have hzero : withSign negative 0 = 0 := by cases negative <;> rfl
  have h := @parseDigits_eq_ok (-2 ^ 127) (2 ^ 127 - 1) radix hradix (by norm_num) (by norm_num)
    negative digits 0 v
  rw [hzero] at h
  rw [numeral, if_neg hne]
  constructor
  · intro hok
    obtain ⟨n, hn, rfl, hfits⟩ := h.mp ⟨hok, by norm_num⟩
    exact ⟨hfits, n, hn, rfl⟩
  · rintro ⟨hfits, n, hn, rfl⟩
    exact (h.mpr ⟨n, hn, rfl, hfits⟩).1

/-- `from_str_radix` of an `i128` accepts an optional sign and a numeral that fits. -/
theorem parseI128_eq_ok {radix : Nat} (hradix : 0 < radix) {s : List Char} {v : Int} :
    parseI128 radix s = .ok v ↔ FitsI128 v ∧ Signed radix s v := by
  unfold parseI128 parseRadix
  split
  · constructor
    · intro h
      cases h
    · rintro ⟨-, ⟨h⟩⟩
      cases h
  · constructor
    · intro h
      cases h
    · rintro ⟨-, hs⟩
      cases hs with
      | plain h => rw [numeral_cons_eq_none (toDigit_sign (Or.inl rfl))] at h; cases h
      | plus h => cases h
  · constructor
    · intro h
      cases h
    · rintro ⟨-, hs⟩
      cases hs with
      | plain h => rw [numeral_cons_eq_none (toDigit_sign (Or.inr rfl))] at h; cases h
      | minus h => cases h
  · next digits hne =>
    rw [parseDigits_start hradix hne]
    refine and_congr_right fun _ => ⟨?_, ?_⟩
    · rintro ⟨n, hn, rfl⟩
      exact .plus hn
    · intro hs
      cases hs with
      | plain h => rw [numeral_cons_eq_none (toDigit_sign (Or.inl rfl))] at h; cases h
      | plus h => exact ⟨_, h, rfl⟩
  · next digits hne =>
    rw [if_pos (by norm_num), parseDigits_start hradix hne]
    refine and_congr_right fun _ => ⟨?_, ?_⟩
    · rintro ⟨n, hn, rfl⟩
      exact .minus hn
    · intro hs
      cases hs with
      | plain h => rw [numeral_cons_eq_none (toDigit_sign (Or.inr rfl))] at h; cases h
      | minus h => exact ⟨_, h, rfl⟩
  · next hnil _ _ hplus hminus =>
    rw [parseDigits_start hradix hnil]
    refine and_congr_right fun _ => ⟨?_, ?_⟩
    · rintro ⟨n, hn, rfl⟩
      exact .plain hn
    · intro hs
      cases hs with
      | plain h => exact ⟨_, h, rfl⟩
      | plus h => exact absurd rfl (hplus _)
      | minus h => exact absurd rfl (hminus _)

end CapaX.Text

namespace CapaX

open Text

/-! ## `parse_int` -/

/-- The number a trimmed text denotes: a decimal with an optional sign, or a hexadecimal after
    `0x` with an optional minus sign before it. -/
inductive Denotes : List Char → Int → Prop
  | decimal {text v} (h : Signed 10 text v) : Denotes text v
  | hex {digits n} (h : numeral 16 digits = some n) : Denotes ('0' :: 'x' :: digits) n
  | negHex {digits n} (h : numeral 16 digits = some n) :
    Denotes ('-' :: '0' :: 'x' :: digits) (-(n : Int))

/-- `parse_int` succeeds exactly on the texts of numbers that fit, with the number denoted. -/
def ParsesAsDenoted (s : List Char) : Prop :=
  ∀ v, parseInt s = .ok v ↔ Denotes (trim s) v ∧ FitsI128 v

/-- `0x`, a sign, and hexadecimal digits of a number that fits. -/
def SignAfterPrefix (s : List Char) : Prop :=
  ∃ sign digits v, trim s = '0' :: 'x' :: sign :: digits ∧ (sign = '+' ∨ sign = '-') ∧
    Signed 16 (sign :: digits) v ∧ FitsI128 v

theorem stripPrefix_eq_some {p s rest : List Char} :
    stripPrefix p s = some rest ↔ s = p ++ rest := by
  unfold stripPrefix
  by_cases hp : p.isPrefixOf s = true
  · obtain ⟨tail, rfl⟩ := List.isPrefixOf_iff_prefix.mp hp
    simp [hp]
  · rw [if_neg hp]
    constructor
    · intro h
      cases h
    · rintro rfl
      exact absurd (List.isPrefixOf_iff_prefix.mpr (List.prefix_append p rest)) hp

theorem stripPrefix_eq_none {p s : List Char} (h : stripPrefix p s = none) (rest : List Char) :
    s ≠ p ++ rest := by
  intro hs
  rw [stripPrefix_eq_some.mpr hs] at h
  cases h

theorem denotes_negPrefixed {digits : List Char} {v : Int} :
    Denotes ('-' :: '0' :: 'x' :: digits) v ↔ Signed 16 ('-' :: digits) v := by
  constructor
  · intro h
    cases h with
    | decimal h =>
      cases h with
      | plain h => rw [numeral_cons_eq_none (toDigit_sign (Or.inr rfl))] at h; cases h
      | minus h => cases h
    | negHex h => exact .minus h
  · intro h
    cases h with
    | plain h => rw [numeral_cons_eq_none (toDigit_sign (Or.inr rfl))] at h; cases h
    | minus h => exact .negHex h

theorem denotes_prefixed {digits : List Char} {v : Int} :
    Denotes ('0' :: 'x' :: digits) v ↔ ∃ n : Nat, numeral 16 digits = some n ∧ v = n := by
  constructor
  · intro h
    cases h with
    | decimal h =>
      cases h with
      | plain h => cases h
    | hex h => exact ⟨_, h, rfl⟩
  · rintro ⟨n, h, rfl⟩
    exact .hex h

/-- What `parse_int` accepts: the sign after `0x` is read with the digits. -/
theorem parseInt_eq_ok {s : List Char} {v : Int} :
    parseInt s = .ok v ↔ FitsI128 v ∧
      (Denotes (trim s) v ∨ ∃ digits, trim s = '0' :: 'x' :: digits ∧ Signed 16 digits v) := by
  unfold parseInt
  dsimp only
  generalize trim s = text
  split
  · next hex hstrip =>
    obtain rfl := stripPrefix_eq_some.mp hstrip
    rw [Control.mapError_eq_ok, parseI128_eq_ok (by decide)]
    refine and_congr_right fun _ => denotes_negPrefixed.symm.trans ?_
    exact (or_iff_left (by rintro ⟨digits, h, -⟩; cases h)).symm
  · next hneg =>
    split
    · next hex hstrip =>
      obtain rfl := stripPrefix_eq_some.mp hstrip
      rw [Control.mapError_eq_ok, parseI128_eq_ok (by decide)]
      refine and_congr_right fun _ => ⟨fun h => Or.inr ⟨hex, rfl, h⟩, ?_⟩
      rintro (h | ⟨digits, h, hs⟩)
      · obtain ⟨n, hn, rfl⟩ := denotes_prefixed.mp h
        exact .plain hn
      · cases h
        exact hs
    · next hpos =>
      rw [Control.mapError_eq_ok, parseI128_eq_ok (by decide)]
      refine and_congr_right fun _ => ⟨fun h => Or.inl (.decimal h), ?_⟩
      rintro (h | ⟨digits, h, -⟩)
      · cases h with
        | decimal h => exact h
        | hex h => exact absurd rfl (stripPrefix_eq_none hpos _)
        | negHex h => exact absurd rfl (stripPrefix_eq_none hneg _)
      · exact absurd h (stripPrefix_eq_none hpos _)

/-! ### Printing -/

/-- The decimal text of an integer. -/
def decimalText (v : Int) : List Char := (toString v).toList

/-- The `-0x..` or `0x..` text of an integer. -/
def hexText (v : Int) : List Char :=
  (if v < 0 then ['-'] else []) ++ '0' :: 'x' :: Nat.toDigits 16 v.natAbs

theorem not_isWhitespace_of_mem_toDigits {radix n : Nat} (hlow : 1 < radix) (hhigh : radix ≤ 16)
    {c : Char} (hc : c ∈ Nat.toDigits radix n) : isWhitespace c = false := by
  have hall : ∀ d < 16, isWhitespace (Nat.digitChar d) = false := by decide
  induction n using Nat.strongRecOn with
  | ind n ih =>
    rw [Nat.toDigits_eq_if hlow] at hc
    split at hc
    · next hn =>
      rw [List.mem_singleton.mp hc]
      exact hall n (by omega)
    · next hn =>
      rcases List.mem_append.mp hc with hc | hc
      · exact ih _ (Nat.div_lt_self (by omega) hlow) hc
      · rw [List.mem_singleton.mp hc]
        exact hall _ ((Nat.mod_lt n (by omega)).trans_le hhigh)

theorem trim_eq_self {s : List Char} (h : ∀ c ∈ s, isWhitespace c = false) : trim s = s := by
  have hdrop : ∀ l : List Char, (∀ c ∈ l, isWhitespace c = false) →
      l.dropWhile isWhitespace = l := by
    intro l hl
    cases l with
    | nil => rfl
    | cons c cs => rw [List.dropWhile_cons, hl c List.mem_cons_self]; simp
  unfold trim
  rw [hdrop s h, hdrop s.reverse fun c hc => h c (List.mem_reverse.mp hc), List.reverse_reverse]

theorem signed_decimalText (v : Int) : Signed 10 (decimalText v) v := by
  have hdigits (n : Nat) : numeral 10 (Nat.toDigits 10 n) = some n :=
    numeral_toDigits (by decide) (by decide) n
  unfold decimalText
  cases v with
  | ofNat n =>
    have htext : (toString (Int.ofNat n)).toList = Nat.toDigits 10 n := Nat.toList_repr
    rw [htext]
    exact .plain (hdigits n)
  | negSucc n =>
    have htext : (toString (Int.negSucc n)).toList = '-' :: Nat.toDigits 10 (n + 1) := by
      show ("-" ++ Nat.repr (n + 1)).toList = _
      rw [String.toList_append, Nat.toList_repr]
      rfl
    rw [htext]
    exact .minus (hdigits (n + 1))

theorem denotes_hexText (v : Int) : Denotes (hexText v) v := by
  have hdigits : numeral 16 (Nat.toDigits 16 v.natAbs) = some v.natAbs :=
    numeral_toDigits (by decide) (by decide) _
  unfold hexText
  by_cases hv : v < 0
  · have hneg : v = -(v.natAbs : Int) := by omega
    rw [if_pos hv]
    nth_rewrite 2 [hneg]
    exact .negHex hdigits
  · have hpos : v = (v.natAbs : Int) := by omega
    rw [if_neg hv]
    nth_rewrite 2 [hpos]
    exact .hex hdigits

/-- Printed integers have no white space to trim. -/
theorem trim_printed {prefixed : List Char} {radix n : Nat} (hlow : 1 < radix)
    (hhigh : radix ≤ 16) (h : ∀ c ∈ prefixed, isWhitespace c = false) :
    trim (prefixed ++ Nat.toDigits radix n) = prefixed ++ Nat.toDigits radix n := by
  refine trim_eq_self fun c hc => ?_
  rcases List.mem_append.mp hc with hc | hc
  · exact h c hc
  · exact not_isWhitespace_of_mem_toDigits hlow hhigh hc

theorem not_isWhitespace_of_mem_sign {c : Char} (hc : c ∈ ['-', '0', 'x']) :
    isWhitespace c = false := by
  simp only [List.mem_cons, List.not_mem_nil, or_false] at hc
  rcases hc with rfl | rfl | rfl <;> rfl

theorem trim_decimalText (v : Int) : trim (decimalText v) = decimalText v := by
  unfold decimalText
  cases v with
  | ofNat n =>
    have htext : (toString (Int.ofNat n)).toList = [] ++ Nat.toDigits 10 n := Nat.toList_repr
    rw [htext]
    exact trim_printed (by decide) (by decide) (by simp)
  | negSucc n =>
    have htext : (toString (Int.negSucc n)).toList = ['-'] ++ Nat.toDigits 10 (n + 1) := by
      show ("-" ++ Nat.repr (n + 1)).toList = _
      rw [String.toList_append, Nat.toList_repr]
      rfl
    rw [htext]
    exact trim_printed (by decide) (by decide) fun c hc =>
      not_isWhitespace_of_mem_sign (List.mem_of_mem_take (i := 1) hc)

theorem trim_hexText (v : Int) : trim (hexText v) = hexText v := by
  have happend : hexText v =
      (if v < 0 then ['-', '0', 'x'] else ['0', 'x']) ++ Nat.toDigits 16 v.natAbs := by
    unfold hexText
    split <;> rfl
  rw [happend]
  refine trim_printed (by decide) (by decide) fun c hc => not_isWhitespace_of_mem_sign ?_
  split at hc
  · exact hc
  · exact List.mem_cons_of_mem _ hc

/-- `parse_int` accepts what it should, unless a sign follows the prefix `0x`; and a printed
    integer, decimal or hexadecimal, is read back. -/
theorem parseInt_denotes_iff (s : List Char) (v : Int) :
    (ParsesAsDenoted s ↔ ¬SignAfterPrefix s) ∧
      (FitsI128 v → parseInt (decimalText v) = .ok v ∧ parseInt (hexText v) = .ok v) := by
  refine ⟨⟨?_, ?_⟩, fun hv => ⟨?_, ?_⟩⟩
  · rintro hparses ⟨sign, digits, v, htext, hsign, hsigned, hfits⟩
    have hok : parseInt s = .ok v :=
      parseInt_eq_ok.mpr ⟨hfits, Or.inr ⟨sign :: digits, htext, hsigned⟩⟩
    have hdenotes : Denotes (trim s) v := ((hparses v).mp hok).1
    rw [htext] at hdenotes
    obtain ⟨n, hn, -⟩ := denotes_prefixed.mp hdenotes
    rw [numeral_cons_eq_none (toDigit_sign hsign)] at hn
    cases hn
  · intro hsign v
    rw [parseInt_eq_ok, and_comm]
    refine and_congr_left fun hfits => or_iff_left_of_imp ?_
    rintro ⟨digits, htext, hsigned⟩
    rw [htext]
    cases hsigned with
    | plain h => exact .hex h
    | plus h => exact absurd ⟨_, _, _, htext, Or.inl rfl, .plus h, hfits⟩ hsign
    | minus h => exact absurd ⟨_, _, _, htext, Or.inr rfl, .minus h, hfits⟩ hsign
  · refine parseInt_eq_ok.mpr ⟨hv, Or.inl ?_⟩
    rw [trim_decimalText]
    exact .decimal (signed_decimalText v)
  · refine parseInt_eq_ok.mpr ⟨hv, Or.inl ?_⟩
    rw [trim_hexText]
    exact denotes_hexText v

theorem parseInt_denotes_iff_hexMinus : FitsI128 (-255) ∧ decimalText (-255) = "-255".toList ∧
    parseInt (decimalText (-255)) = .ok (-255) ∧ parseInt (hexText (-255)) = .ok (-255) := by
  have hfits : FitsI128 (-255) := ⟨by norm_num, by norm_num⟩
  obtain ⟨hdecimal, hhex⟩ := (parseInt_denotes_iff "-255".toList (-255)).2 hfits
  exact ⟨hfits, by decide, hdecimal, hhex⟩

/-- `0x-5` is read as -5, a text that denotes no number. -/
theorem parseInt_signAfterPrefix : ¬ParsesAsDenoted "0x-5".toList := by
  intro h
  have hok : parseInt "0x-5".toList = .ok (-5) := by decide
  have hdenotes := ((h (-5)).mp hok).1
  have htrim : trim "0x-5".toList = ['0', 'x', '-', '5'] := by decide
  rw [htrim] at hdenotes
  obtain ⟨n, hn, -⟩ := denotes_prefixed.mp hdenotes
  cases hn

end CapaX
