import CapaX.ElfOs.Reading

/-
  The string scans (`strings.rs`). A scan is a run with fuel; it has no value when a read leaves the
  buffer or the fuel ends. Offsets are naturals: they never pass the length of the buffer, which is
  at most `isize::MAX`. The reference is the iteration of a regular expression `unit{n,}` over the
  places of a buffer (`Matches`), for units of any width.
-/

namespace CapaX.Extract

open ElfOs

/-! ## Leftmost, greedy matches -/

section Matches

variable (unit : Nat → Prop) (width : Nat)

/-- `k` units follow each other from place `i` on. -/
def Repeats (i k : Nat) : Prop := ∀ t < k, unit (i + width * t)

/-- The matches of at least `n` units from a place on: each is the first that starts there or later,
    and as long as it can be; the next is looked for where it ends. -/
inductive Matches (n : Nat) : Nat → List (Nat × Nat) → Prop
  | done {p : Nat} (hnone : ∀ j, p ≤ j → ¬ Repeats unit width j n) : Matches n p []
  | next {p i k : Nat} {ms : List (Nat × Nat)} (hle : p ≤ i)
      (hbefore : ∀ j, p ≤ j → j < i → ¬ Repeats unit width j n)
      (hrun : Repeats unit width i k) (hlong : n ≤ k) (hstop : ¬ unit (i + width * k))
      (hrest : Matches n (i + width * k) ms) : Matches n p ((i, k) :: ms)

/-- A run of single units that no unit precedes or follows. -/
def MaximalRun (i k : Nat) : Prop :=
  (i = 0 ∨ ¬ unit (i - 1)) ∧ Repeats unit 1 i k ∧ ¬ unit (i + k)

end Matches

section

variable {unit : Nat → Prop} {width n : Nat}

theorem Repeats.mono {i k m : Nat} (h : Repeats unit width i k) (hle : m ≤ k) :
    Repeats unit width i m := fun t ht => h t (by omega)

theorem Repeats.head {i k : Nat} (h : Repeats unit width i k) (hk : 0 < k) : unit i := by
  have := h 0 hk
  simpa using this

/-- How far a run can go is fixed by where it stops. -/
theorem Repeats.length_unique {i k k' : Nat} (hk : Repeats unit width i k)
    (hstop : ¬ unit (i + width * k)) (hk' : Repeats unit width i k')
    (hstop' : ¬ unit (i + width * k')) : k = k' := by
  apply Nat.le_antisymm
  · exact Nat.le_of_not_lt fun hlt => hstop' (hk k' hlt)
  · exact Nat.le_of_not_lt fun hlt => hstop (hk' k hlt)

/-- Places at which no match starts may be skipped. -/
theorem Matches.skip {p q : Nat} {ms : List (Nat × Nat)} (h : Matches unit width n q ms)
    (hle : p ≤ q) (hnone : ∀ j, p ≤ j → j < q → ¬ Repeats unit width j n) :
    Matches unit width n p ms := by
  have hall : ∀ j, p ≤ j → (q ≤ j → ¬ Repeats unit width j n) → ¬ Repeats unit width j n := by
    intro j hj hq
    by_cases hlt : j < q
    · exact hnone j hj hlt
    · exact hq (by omega)
  cases h with
  | done hdone => exact .done fun j hj => hall j hj (hdone j)
  | next hq hbefore hrun hlong hstop hrest =>
    refine .next (by omega) ?_ hrun hlong hstop hrest
    intro j hj hlt
    exact hall j hj fun hqj => hbefore j hqj hlt

theorem Matches.unique {p : Nat} {ms ms' : List (Nat × Nat)} (h : Matches unit width n p ms)
    (h' : Matches unit width n p ms') : ms = ms' := by
  induction h generalizing ms' with
  | done hnone =>
    cases h' with
    | done _ => rfl
    | next hle _ hrun hlong _ _ => exact absurd (hrun.mono hlong) (hnone _ hle)
  | @next p i k ms hle hbefore hrun hlong hstop _ ih =>
    cases h' with
    | done hnone => exact absurd (hrun.mono hlong) (hnone _ hle)
    | @next _ i' k' ms' hle' hbefore' hrun' hlong' hstop' hrest' =>
      have hi : i = i' := by
        apply Nat.le_antisymm
        · exact Nat.le_of_not_lt fun hlt => hbefore i' hle' hlt (hrun'.mono hlong')
        · exact Nat.le_of_not_lt fun hlt => hbefore' i hle hlt (hrun.mono hlong)
      subst hi
      have hk := hrun.length_unique hstop hrun' hstop'
      subst hk
      rw [ih hrest']

theorem Matches.le_of_mem {p i k : Nat} {ms : List (Nat × Nat)}
    (h : Matches unit width n p ms) (hmem : (i, k) ∈ ms) : p ≤ i := by
  induction h with
  | done _ => cases hmem
  | next hle _ _ _ _ _ ih =>
    rcases List.mem_cons.mp hmem with heq | hmem
    · cases heq
      exact hle
    · have := ih hmem
      omega

theorem Matches.pairwise {p : Nat} {ms : List (Nat × Nat)} (h : Matches unit width n p ms)
    (hw : 0 < width) (hn : 0 < n) : ms.Pairwise fun a b => a.1 < b.1 := by
  induction h with
  | done _ => exact List.Pairwise.nil
  | @next p i k ms _ _ _ hlong _ hrest ih =>
    refine List.pairwise_cons.mpr ⟨?_, ih⟩
    intro m hm
    have hle := hrest.le_of_mem hm
    have hpos : 0 < width * k := Nat.mul_pos hw (by omega)
    show i < m.1
    omega

/-- With units of one place the matches are the maximal runs that are long enough. The search may
    start at the front, right behind a place without a unit, or at one. -/
theorem Matches.mem_iff {p : Nat} {ms : List (Nat × Nat)} (h : Matches unit 1 n p ms)
    (hn : 0 < n) (hp : p = 0 ∨ ¬ unit (p - 1) ∨ ¬ unit p) (i k : Nat) :
    (i, k) ∈ ms ↔ p ≤ i ∧ MaximalRun unit i k ∧ n ≤ k := by
  induction h with
  | done hnone =>
    simp only [List.not_mem_nil, false_iff]
    rintro ⟨hle, ⟨-, hrun, -⟩, hlong⟩
    exact hnone i hle (hrun.mono hlong)
  | @next p a m ms hle hbefore hrun hlong hstop hrest ih =>
    rw [Nat.one_mul] at hstop hrest ih
    have hleft : a = 0 ∨ ¬ unit (a - 1) := by
      by_cases hpa : p = a
      · subst hpa
        rcases hp with h0 | hprev | hhere
        · exact Or.inl h0
        · exact Or.inr hprev
        · exact absurd (hrun.head (by omega)) hhere
      · right
        intro hprev
        apply hbefore (a - 1) (by omega) (by omega)
        intro t ht
        by_cases ht0 : t = 0
        · subst ht0
          simpa using hprev
        · have := hrun (t - 1) (by omega)
          rwa [show a + 1 * (t - 1) = a - 1 + 1 * t by omega] at this
    have hmax : MaximalRun unit a m := ⟨hleft, hrun, hstop⟩
    rw [List.mem_cons, ih (Or.inr (Or.inr hstop))]
    constructor
    · rintro (heq | ⟨hge, hrest⟩)
      · cases heq
        exact ⟨hle, hmax, hlong⟩
      · exact ⟨by omega, hrest⟩
    · rintro ⟨hge, ⟨hl, hr, hs⟩, hk⟩
      have hai : a ≤ i := Nat.le_of_not_lt fun hlt => hbefore i hge hlt (hr.mono hk)
      by_cases hin : i ≤ a + m
      · -- inside the first run: it can only be that run
        have hia : i = a := by
          by_contra hne
          rcases hl with h0 | hprev
          · omega
          · have := hrun (i - 1 - a) (by omega)
            rw [show a + 1 * (i - 1 - a) = i - 1 by omega] at this
            exact hprev this
        subst hia
        have hkm := hrun.length_unique (by rwa [Nat.one_mul]) hr (by rwa [Nat.one_mul])
        subst hkm
        exact Or.inl rfl
      · exact Or.inr ⟨by omega, ⟨hl, hr, hs⟩, hk⟩

end

/-! ## The source -/

/-- `REPEATS`. -/
def repeats : List UInt8 := [0x41, 0x00, 0xfe, 0xff]

structure ExtractedString where
  s : String
  offset : Nat
  deriving DecidableEq, Repr

def isAsciiByte (b : UInt8) : Bool := b == 0x09 || (0x20 ≤ b && b ≤ 0x7e)

def bufFilledWith (buf : List UInt8) (character : UInt8) : Bool :=
  if buf.isEmpty then false else buf.all fun b => b == character

/-- `b as char`. -/
def byteChar (b : UInt8) : Char := Char.ofNat b.toNat

/-- The empty, the unasked for and the filled buffers, which are not scanned. -/
def skipsBuffer (buf : List UInt8) (n : Nat) : Option Bool :=
  if buf.isEmpty || n < 1 then some true
  else buf[0]?.map fun first => repeats.contains first && bufFilledWith buf first

/-- The end of the run of qualifying bytes at `i`. -/
def asciiRun (buf : List UInt8) : Nat → Nat → Option Nat
  | 0, _ => none
  | fuel + 1, i =>
    if i < buf.length then
      buf[i]?.bind fun b => if isAsciiByte b then asciiRun buf fuel (i + 1) else some i
    else some i

def asciiLoop (buf : List UInt8) (n : Nat) :
    Nat → Nat → List ExtractedString → Option (List ExtractedString)
  | 0, _, _ => none
  | fuel + 1, i, out =>
    if i < buf.length then
      buf[i]?.bind fun b =>
        if isAsciiByte b then
          (asciiRun buf (buf.length + 1) i).bind fun stop =>
            if n ≤ stop - i then
              (get buf i stop).bind fun bytes =>
                asciiLoop buf n fuel stop (out ++ [⟨String.ofList (bytes.map byteChar), i⟩])
            else asciiLoop buf n fuel stop out
        else asciiLoop buf n fuel (i + 1) out
    else some out

def extractAsciiStrings (buf : ByteBuf) (n : Nat) : Option (List ExtractedString) :=
  (skipsBuffer buf.bytes n).bind fun skipped =>
    if skipped then some [] else asciiLoop buf.bytes n (buf.bytes.length + 1) 0 []

/-- `chunks_exact(2)`. -/
def chunksExact2 : List UInt8 → List (UInt8 × UInt8)
  | a :: b :: rest => (a, b) :: chunksExact2 rest
  | _ => []

/-- The end of the run of pairs at `j`, and their number. -/
def pairRun (buf : List UInt8) : Nat → Nat → Nat → Option (Nat × Nat)
  | 0, _, _ => none
  | fuel + 1, j, pairs =>
    if j + 1 < buf.length then
      buf[j]?.bind fun b =>
        if isAsciiByte b then
          buf[j + 1]?.bind fun zero =>
            if zero = 0 then pairRun buf fuel (j + 2) (pairs + 1) else some (j, pairs)
        else some (j, pairs)
    else some (j, pairs)

def unicodeLoop (buf : List UInt8) (n : Nat) :
    Nat → Nat → List ExtractedString → Option (List ExtractedString)
  | 0, _, _ => none
  | fuel + 1, i, out =>
    if i + 1 < buf.length then
      (pairRun buf (buf.length + 1) i 0).bind fun run =>
        if n ≤ run.2 then
          (get buf i run.1).bind fun bytes =>
            unicodeLoop buf n fuel run.1
              (out ++ [⟨String.ofList ((chunksExact2 bytes).map fun pair => byteChar pair.1), i⟩])
        else unicodeLoop buf n fuel (i + 1) out
    else some out

def extractUnicodeStrings (buf : ByteBuf) (n : Nat) : Option (List ExtractedString) :=
  (skipsBuffer buf.bytes n).bind fun skipped =>
    if skipped then some [] else unicodeLoop buf.bytes n (buf.bytes.length + 1) 0 []

/-! ## What is looked for -/

/-- A buffer that holds one of the repeat bytes and nothing else. -/
def FilledWithRepeat (buf : List UInt8) : Prop :=
  buf ≠ [] ∧ ∃ c ∈ repeats, ∀ b ∈ buf, b = c

/-- A qualifying byte. -/
def AsciiAt (buf : List UInt8) (i : Nat) : Prop := ∃ b ∈ buf[i]?, isAsciiByte b = true

/-- A qualifying byte, then a zero byte. -/
def PairAt (buf : List UInt8) (i : Nat) : Prop := AsciiAt buf i ∧ buf[i + 1]? = some 0

/-- The string of `k` units from `i` on. -/
def stringAt (buf : List UInt8) (width i k : Nat) : ExtractedString :=
  ⟨String.ofList ((List.range k).filterMap fun t => buf[i + width * t]?.map byteChar), i⟩

/-! ## The runs -/

theorem AsciiAt.lt {buf : List UInt8} {i : Nat} (h : AsciiAt buf i) : i < buf.length := by
  obtain ⟨b, hb, -⟩ := h
  obtain ⟨hlt, -⟩ := List.getElem?_eq_some_iff.mp hb
  exact hlt

theorem PairAt.lt {buf : List UInt8} {i : Nat} (h : PairAt buf i) : i + 1 < buf.length := by
  obtain ⟨hlt, -⟩ := List.getElem?_eq_some_iff.mp h.2
  exact hlt

theorem asciiAt_iff {buf : List UInt8} {i : Nat} {b : UInt8} (hb : buf[i]? = some b) :
    AsciiAt buf i ↔ isAsciiByte b = true := by
  simp [AsciiAt, hb]

theorem Repeats.cons {unit : Nat → Prop} {width i k : Nat} (h : unit i)
    (hrun : Repeats unit width (i + width) k) : Repeats unit width i (k + 1) := by
  intro t ht
  cases t with
  | zero => simpa using h
  | succ t =>
    have := hrun t (by omega)
    rwa [show i + width * (t + 1) = i + width + width * t by rw [Nat.mul_succ]; omega]

theorem asciiRun_eq {buf : List UInt8} (fuel i : Nat) (hi : i ≤ buf.length)
    (hfuel : buf.length < i + fuel) :
    ∃ k, asciiRun buf fuel i = some (i + k) ∧ Repeats (AsciiAt buf) 1 i k ∧
      ¬ AsciiAt buf (i + k) ∧ i + k ≤ buf.length := by
  induction fuel generalizing i with
  | zero => omega
  | succ fuel ih =>
    have hnone : Repeats (AsciiAt buf) 1 i 0 := fun t ht => absurd ht (Nat.not_lt_zero t)
    rw [asciiRun]
    by_cases hlt : i < buf.length
    · have hb := List.getElem?_eq_getElem hlt
      rw [if_pos hlt, hb, Option.bind_some]
      by_cases hascii : isAsciiByte buf[i] = true
      · obtain ⟨k, hrun, hreps, hstop, hle⟩ := ih (i + 1) hlt (by omega)
        rw [show i + 1 + k = i + (k + 1) by omega] at hrun hstop hle
        rw [if_pos hascii]
        exact ⟨k + 1, hrun, Repeats.cons ((asciiAt_iff hb).mpr hascii) hreps, hstop, hle⟩
      · rw [if_neg hascii]
        exact ⟨0, rfl, hnone, fun h => hascii ((asciiAt_iff hb).mp h), hi⟩
    · rw [if_neg hlt]
      exact ⟨0, rfl, hnone, fun h => hlt h.lt, hi⟩

theorem pairRun_eq {buf : List UInt8} (fuel j pairs : Nat) (hj : j ≤ buf.length)
    (hfuel : buf.length < j + fuel) :
    ∃ k, pairRun buf fuel j pairs = some (j + 2 * k, pairs + k) ∧ Repeats (PairAt buf) 2 j k ∧
      ¬ PairAt buf (j + 2 * k) ∧ j + 2 * k ≤ buf.length := by
  induction fuel generalizing j pairs with
  | zero => omega
  | succ fuel ih =>
    have hnone : Repeats (PairAt buf) 2 j 0 := fun t ht => absurd ht (Nat.not_lt_zero t)
    rw [pairRun]
    by_cases hlt : j + 1 < buf.length
    · have hb := List.getElem?_eq_getElem (show j < buf.length by omega)
      have hz := List.getElem?_eq_getElem hlt
      rw [if_pos hlt, hb, Option.bind_some]
      by_cases hascii : isAsciiByte buf[j] = true
      · rw [if_pos hascii, hz, Option.bind_some]
        by_cases hzero : buf[j + 1] = 0
        · obtain ⟨k, hrun, hreps, hstop, hle⟩ := ih (j + 2) (pairs + 1) (by omega) (by omega)
          rw [show j + 2 + 2 * k = j + 2 * (k + 1) by omega] at hrun hstop hle
          rw [show pairs + 1 + k = pairs + (k + 1) by omega] at hrun
          rw [if_pos hzero]
          have hpair : PairAt buf j := ⟨(asciiAt_iff hb).mpr hascii, hz.trans (congrArg some hzero)⟩
          exact ⟨k + 1, hrun, Repeats.cons hpair hreps, hstop, hle⟩
        · rw [if_neg hzero]
          refine ⟨0, rfl, hnone, ?_, hj⟩
          intro h
          exact hzero (Option.some.inj (hz.symm.trans h.2))
      · rw [if_neg hascii]
        exact ⟨0, rfl, hnone, fun h => hascii ((asciiAt_iff hb).mp h.1), hj⟩
    · rw [if_neg hlt]
      exact ⟨0, rfl, hnone, fun h => hlt h.lt, hj⟩

/-! ## Contents -/

theorem take_map_eq (l : List UInt8) (k : Nat) :
    (l.take k).map byteChar = (List.range k).filterMap fun t => l[t]?.map byteChar := by
  induction k generalizing l with
  | zero => simp
  | succ k ih =>
    cases l with
    | nil => simp
    | cons a l =>
      rw [List.take_succ_cons, List.map_cons, ih, List.range_succ_eq_map, List.filterMap_cons,
        List.filterMap_map]
      simp

theorem chunksExact2_map_eq (l : List UInt8) (k : Nat) (hk : 2 * k ≤ l.length) :
    ((chunksExact2 (l.take (2 * k))).map fun pair => byteChar pair.1) =
      (List.range k).filterMap fun t => l[2 * t]?.map byteChar := by
  induction k generalizing l with
  | zero => simp [chunksExact2]
  | succ k ih =>
    match l, hk with
    | a :: b :: l, hk =>
      have hlen : 2 * k ≤ l.length := by
        simp only [List.length_cons] at hk
        omega
      rw [show 2 * (k + 1) = 2 * k + 1 + 1 by omega, List.take_succ_cons, List.take_succ_cons,
        chunksExact2, List.map_cons, ih l hlen, List.range_succ_eq_map, List.filterMap_cons,
        List.filterMap_map]
      simp [Nat.mul_succ]

theorem get_eq {buf : List UInt8} {i k : Nat} (hle : i + k ≤ buf.length) :
    get buf i (i + k) = some ((buf.drop i).take k) := by
  rw [ElfOs.get, if_pos ⟨by omega, hle⟩, Nat.add_sub_cancel_left]

theorem ascii_contents (buf : List UInt8) (i k : Nat) :
    (⟨String.ofList (((buf.drop i).take k).map byteChar), i⟩ : ExtractedString) =
      stringAt buf 1 i k := by
  rw [stringAt, take_map_eq]
  simp

theorem unicode_contents {buf : List UInt8} {i k : Nat} (hle : i + 2 * k ≤ buf.length) :
    (⟨String.ofList ((chunksExact2 ((buf.drop i).take (2 * k))).map fun pair => byteChar pair.1),
      i⟩ : ExtractedString) = stringAt buf 2 i k := by
  rw [stringAt, chunksExact2_map_eq _ _ (by rw [List.length_drop]; omega)]
  simp

/-! ## The loops -/

theorem matches_end {unit : Nat → Prop} {width n i : Nat} (hn : 0 < n)
    (hend : ∀ j, i ≤ j → ¬ unit j) : Matches unit width n i [] :=
  .done fun j hj hrun => hend j hj (hrun.head hn)

theorem asciiLoop_eq (buf : List UInt8) {n : Nat} (hn : 0 < n) (fuel i : Nat)
    (out : List ExtractedString) (hi : i ≤ buf.length) (hfuel : buf.length < i + fuel) :
    ∃ ms, asciiLoop buf n fuel i out = some (out ++ ms.map fun m => stringAt buf 1 m.1 m.2) ∧
      Matches (AsciiAt buf) 1 n i ms := by
  induction fuel generalizing i out with
  | zero => omega
  | succ fuel ih =>
    rw [asciiLoop]
    by_cases hlt : i < buf.length
    · have hb := List.getElem?_eq_getElem hlt
      rw [if_pos hlt, hb, Option.bind_some]
      by_cases hascii : isAsciiByte buf[i] = true
      · obtain ⟨k, hrun, hreps, hstop, hle⟩ :=
          asciiRun_eq (buf.length + 1) i (Nat.le_of_lt hlt) (by omega)
        have hpos : 0 < k := by
          apply Nat.pos_of_ne_zero
          intro h0
          subst h0
          exact hstop ((asciiAt_iff hb).mpr hascii)
        rw [if_pos hascii, hrun, Option.bind_some, Nat.add_sub_cancel_left]
        by_cases hlong : n ≤ k
        · rw [if_pos hlong, get_eq hle, Option.bind_some, ascii_contents]
          obtain ⟨ms, hloop, hms⟩ := ih (i + k) (out ++ [stringAt buf 1 i k]) hle (by omega)
          refine ⟨(i, k) :: ms, ?_, ?_⟩
          · rw [hloop, List.append_assoc]
            rfl
          · rw [← Nat.one_mul k] at hstop hms
            exact .next (Nat.le_refl i) (fun j hj hji => by omega) hreps hlong hstop hms
        · -- a match from inside the run would go past its end
          rw [if_neg hlong]
          obtain ⟨ms, hloop, hms⟩ := ih (i + k) out hle (by omega)
          refine ⟨ms, hloop, hms.skip (by omega) ?_⟩
          intro j hj hjk hrep
          apply hstop
          have := hrep (i + k - j) (by omega)
          rwa [show j + 1 * (i + k - j) = i + k by omega] at this
      · rw [if_neg hascii]
        obtain ⟨ms, hloop, hms⟩ := ih (i + 1) out hlt (by omega)
        refine ⟨ms, hloop, hms.skip (by omega) ?_⟩
        intro j hj hji hrep
        have hji : j = i := by omega
        subst hji
        exact hascii ((asciiAt_iff hb).mp (hrep.head hn))
    · rw [if_neg hlt]
      refine ⟨[], by simp, matches_end hn ?_⟩
      intro j hj h
      have := h.lt
      omega

theorem unicodeLoop_eq (buf : List UInt8) {n : Nat} (hn : 0 < n) (fuel i : Nat)
    (out : List ExtractedString) (hi : i ≤ buf.length) (hfuel : buf.length < i + fuel) :
    ∃ ms, unicodeLoop buf n fuel i out = some (out ++ ms.map fun m => stringAt buf 2 m.1 m.2) ∧
      Matches (PairAt buf) 2 n i ms := by
  induction fuel generalizing i out with
  | zero => omega
  | succ fuel ih =>
    rw [unicodeLoop]
    by_cases hlt : i + 1 < buf.length
    · obtain ⟨k, hrun, hreps, hstop, hle⟩ := pairRun_eq (buf.length + 1) i 0 hi (by omega)
      rw [if_pos hlt, hrun, Option.bind_some, Nat.zero_add]
      by_cases hlong : n ≤ k
      · rw [if_pos hlong, get_eq hle, Option.bind_some, unicode_contents hle]
        obtain ⟨ms, hloop, hms⟩ := ih (i + 2 * k) (out ++ [stringAt buf 2 i k]) hle (by omega)
        refine ⟨(i, k) :: ms, ?_, ?_⟩
        · rw [hloop, List.append_assoc]
          rfl
        · exact .next (Nat.le_refl i) (fun j hj hji => by omega) hreps hlong hstop hms
      · -- only the place itself is given up: a match may start in the middle of the run
        rw [if_neg hlong]
        obtain ⟨ms, hloop, hms⟩ := ih (i + 1) out (by omega) (by omega)
        refine ⟨ms, hloop, hms.skip (by omega) ?_⟩
        intro j hj hji hrep
        have hji : j = i := by omega
        subst hji
        have hkn : ¬ k < n := fun hkn => hstop (hrep k hkn)
        omega
    · rw [if_neg hlt]
      refine ⟨[], by simp, matches_end hn ?_⟩
      intro j hj h
      have := h.lt
      omega

/-! ## The result -/

theorem skipsBuffer_eq {buf : List UInt8} {n : Nat} (hn : 1 ≤ n) (hfill : ¬ FilledWithRepeat buf) :
    skipsBuffer buf n = some buf.isEmpty := by
  cases buf with
  | nil => rfl
  | cons first rest =>
    have hnot : (repeats.contains first && bufFilledWith (first :: rest) first) = false := by
      rw [Bool.eq_false_iff]
      intro h
      rw [Bool.and_eq_true, List.contains_iff_mem] at h
      apply hfill
      refine ⟨List.cons_ne_nil _ _, first, h.1, ?_⟩
      simpa [bufFilledWith] using h.2
    have hlt : ¬ n < 1 := by omega
    rw [skipsBuffer, if_neg (by simp [hlt])]
    exact congrArg some hnot

/-- On a buffer that is not filled with a repeat byte both scans end without a read out of bounds.
    The ASCII scan returns the maximal runs of at least `n` qualifying bytes in order; the Unicode
    scan returns the leftmost, greedy matches of at least `n` pairs, at any alignment. -/
theorem extractStrings_spec (buf : ByteBuf) (n : Nat) (hn : 1 ≤ n)
    (hfill : ¬ FilledWithRepeat buf.bytes) :
    (∃ runs : List (Nat × Nat),
      extractAsciiStrings buf n = some (runs.map fun m => stringAt buf.bytes 1 m.1 m.2) ∧
      (runs.Pairwise fun a b => a.1 < b.1) ∧
      ∀ i k, (i, k) ∈ runs ↔ MaximalRun (AsciiAt buf.bytes) i k ∧ n ≤ k) ∧
    ∃ ms : List (Nat × Nat),
      extractUnicodeStrings buf n = some (ms.map fun m => stringAt buf.bytes 2 m.1 m.2) ∧
      ∀ ms', Matches (PairAt buf.bytes) 2 n 0 ms' ↔ ms' = ms := by
  have hskip := skipsBuffer_eq hn hfill
  by_cases hempty : buf.bytes = []
  · have hnil : ∀ i, ¬ AsciiAt buf.bytes i := by
      intro i h
      have := h.lt
      rw [hempty] at this
      exact absurd this (Nat.not_lt_zero i)
    constructor
    · refine ⟨[], by rw [extractAsciiStrings, hskip, hempty]; rfl, List.Pairwise.nil, ?_⟩
      intro i k
      have hms : Matches (AsciiAt buf.bytes) 1 n 0 [] := matches_end hn fun j _ => hnil j
      simpa using hms.mem_iff hn (Or.inl rfl) i k
    · refine ⟨[], by rw [extractUnicodeStrings, hskip, hempty]; rfl, ?_⟩
      intro ms'
      have hms : Matches (PairAt buf.bytes) 2 n 0 [] := matches_end hn fun j _ h => hnil j h.1
      exact ⟨fun h => h.unique hms, fun h => h ▸ hms⟩
  · have hscan : skipsBuffer buf.bytes n = some false := by
      rw [hskip, List.isEmpty_eq_false_iff.mpr hempty]
    constructor
    · obtain ⟨ms, hloop, hms⟩ :=
        asciiLoop_eq buf.bytes hn (buf.bytes.length + 1) 0 [] (by omega) (by omega)
      refine ⟨ms, ?_, hms.pairwise Nat.one_pos hn, ?_⟩
      · rw [extractAsciiStrings, hscan, Option.bind_some, if_neg (by decide), hloop,
          List.nil_append]
      · intro i k
        rw [hms.mem_iff hn (Or.inl rfl)]
        simp
    · obtain ⟨ms, hloop, hms⟩ :=
        unicodeLoop_eq buf.bytes hn (buf.bytes.length + 1) 0 [] (by omega) (by omega)
      refine ⟨ms, ?_, fun ms' => ⟨fun h => h.unique hms, fun h => h ▸ hms⟩⟩
      rw [extractUnicodeStrings, hscan, Option.bind_some, if_neg (by decide), hloop,
        List.nil_append]

/-- A pair at an odd place, behind a run that is too short. -/
def oddPairs : ByteBuf := ⟨[0x41, 0x41, 0x00, 0x42, 0x00, 0x43], by decide⟩

theorem extractStrings_spec_oddPairs :
    (∃ runs : List (Nat × Nat), extractAsciiStrings oddPairs 2 =
        some (runs.map fun m => stringAt oddPairs.bytes 1 m.1 m.2) ∧
      (runs.Pairwise fun a b => a.1 < b.1) ∧
      ∀ i k, (i, k) ∈ runs ↔ MaximalRun (AsciiAt oddPairs.bytes) i k ∧ 2 ≤ k) ∧
    ∃ ms : List (Nat × Nat), extractUnicodeStrings oddPairs 2 =
        some (ms.map fun m => stringAt oddPairs.bytes 2 m.1 m.2) ∧
      ∀ ms', Matches (PairAt oddPairs.bytes) 2 2 0 ms' ↔ ms' = ms :=
  extractStrings_spec oddPairs 2 (by decide) (by
    rintro ⟨-, c, -, h⟩
    have h0 := h 0x41 (by decide)
    have h1 := h 0x00 (by decide)
    rw [← h0] at h1
    exact absurd h1 (by decide))

example : extractUnicodeStrings oddPairs 2 = some [⟨"AB", 1⟩] := by decide

end CapaX.Extract
