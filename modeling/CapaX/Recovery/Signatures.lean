import CapaX.Collections.IndexMap
import CapaX.Collections.Indices
import CapaX.Recovery.Image
import Mathlib.Data.Prod.Lex

/-
  FLIRT signatures and their compact index (`flirt.rs`). A signature is filed under the length,
  the wildcard mask and the masked value of its first eight elements; a query looks up one value
  for each length and mask that occurs, and then tests the candidates in full.

  `match_lossless`: a query returns what testing every signature returns, and a signature with a
  local name away from its root shows in the first eight bytes.
-/

namespace CapaX.Recovery

open Collections

instance instLinearOrderUInt8 : LinearOrder UInt8 where
  le_refl := UInt8.le_refl
  le_trans _ _ _ := UInt8.le_trans
  lt_iff_le_not_ge _ _ := by
    rw [UInt8.le_iff_toNat_le, UInt8.le_iff_toNat_le, UInt8.lt_iff_toNat_lt]
    omega
  le_antisymm _ _ := UInt8.le_antisymm
  le_total := UInt8.le_total
  toDecidableLE := fun a b => inferInstanceAs (Decidable (a ≤ b))
  toDecidableLT := fun a b => inferInstanceAs (Decidable (a < b))
  toDecidableEq := inferInstance

/-! ## Signatures -/

inductive SigElement where
  | byte (value : UInt8)
  | wildcard
  deriving DecidableEq, Repr

/-- A name at an offset from the root. -/
structure Name where
  offset : Int64
  name : String
  deriving DecidableEq

inductive Symbol where
  | «public» (name : Name)
  | «local» (name : Name)
  | reference (name : Name)
  deriving DecidableEq

/-- A parsed signature. Its three further checks are the signature library's own. -/
structure FlirtSignature where
  byteSig : List SigElement
  names : List Symbol
  matchCrc16 : List UInt8 → Bool
  matchTailBytes : List UInt8 → Bool
  matchFooter : List UInt8 → Bool

namespace FlirtSignature

def effectiveHeadLen (signature : FlirtSignature) : Nat := signature.byteSig.length

def headMatches (signature : FlirtSignature) (bytes : List UInt8) : Bool :=
  if bytes.length < signature.effectiveHeadLen then false
  else ((signature.byteSig.take signature.effectiveHeadLen).zip bytes).all fun (element, byte) =>
    match element with
    | .byte expected => expected == byte
    | .wildcard => true

end FlirtSignature

/-! ## The index -/

namespace SignatureMatcher

def prefixLen : Nat := 8

/-- `mask & (1 << index) != 0`. -/
def selects (mask : UInt8) (index : Nat) : Bool := mask &&& (1 <<< UInt8.ofNat index) != 0

/-- `u64::from(byte) << (index * 8)`. -/
def placed (byte : UInt8) (index : Nat) : UInt64 := byte.toUInt64 <<< UInt64.ofNat (index * 8)

def addElement (acc : UInt8 × UInt64) (e : SigElement × Nat) : UInt8 × UInt64 :=
  match e.1 with
  | .byte byte => (acc.1 ||| 1 <<< UInt8.ofNat e.2, acc.2 ||| placed byte e.2)
  | .wildcard => acc

/-- The length, the mask and the masked value a signature is filed under. -/
def signaturePrefix (signature : FlirtSignature) : UInt8 × UInt8 × UInt64 :=
  let headLen := min signature.effectiveHeadLen prefixLen
  (UInt8.ofNat headLen, (signature.byteSig.take headLen).zipIdx.foldl addElement (0, 0))

def maskedPrefixValue (bytes : List UInt8) (mask : UInt8) : UInt64 :=
  (bytes.zipIdx.filter fun e => selects mask e.2).foldl
    (fun value e => value ||| placed e.1 e.2) 0

end SignatureMatcher

structure SignatureMatcher where
  signatures : List FlirtSignature
  prefixShapes : List (UInt8 ×ₗ UInt8)
  prefixes : IndexMap (UInt8 × UInt8 × UInt64) (List Nat)

namespace SignatureMatcher

/-- The keys of the signatures, with their positions. -/
def filed (signatures : List FlirtSignature) : List ((UInt8 × UInt8 × UInt64) × Nat) :=
  signatures.zipIdx.map fun e => (signaturePrefix e.1, e.2)

def withSignatures (signatures : List FlirtSignature) : SignatureMatcher where
  signatures := signatures
  prefixShapes := (OrdSet.ofList ((filed signatures).map fun e => toLex (e.1.1, e.1.2.1))).toList
  prefixes := IndexMap.group (filed signatures)

/-- The positions filed under a shape and the value of the bytes for it. -/
def lookup (matcher : SignatureMatcher) (bytes : List UInt8) (shape : UInt8 ×ₗ UInt8) : List Nat :=
  let length := (ofLex shape).1
  let mask := (ofLex shape).2
  if bytes.length < length.toNat then []
  else (matcher.prefixes.get?
    (length, mask, maskedPrefixValue (bytes.take length.toNat) mask)).getD []

def «match» (matcher : SignatureMatcher) (bytes : List UInt8) : List FlirtSignature :=
  let candidates := distinctIndices (matcher.prefixShapes.flatMap (matcher.lookup bytes))
  ((((pick matcher.signatures candidates).filter fun signature => signature.headMatches bytes).filter
    fun signature => signature.matchCrc16 bytes).filter
    fun signature => signature.matchTailBytes bytes).filter
    fun signature => signature.matchFooter bytes

/-- A local name away from the root. -/
def namesElsewhere (symbol : Symbol) : Bool :=
  match symbol with
  | .local name => name.offset != 0
  | _ => false

def hasLocalCandidate (matcher : SignatureMatcher) (bytes : List UInt8) : Bool :=
  matcher.prefixShapes.any fun shape =>
    (pick matcher.signatures (matcher.lookup bytes shape)).any fun signature =>
      signature.names.any namesElsewhere

/-! ## What a pattern matches -/

def Accepts : SigElement → UInt8 → Prop
  | .byte expected, byte => expected = byte
  | .wildcard, _ => True

/-- The whole pattern matches the head of the bytes. -/
def PatternMatches (pattern : List SigElement) (bytes : List UInt8) : Prop :=
  ∃ head rest, bytes = head ++ rest ∧ List.Forall₂ Accepts pattern head

theorem all_zip_iff {pattern : List SigElement} {bytes : List UInt8}
    (hlen : pattern.length ≤ bytes.length) :
    ((pattern.zip bytes).all fun (element, byte) =>
      match element with
      | .byte expected => expected == byte
      | .wildcard => true) = true ↔ List.Forall₂ Accepts pattern (bytes.take pattern.length) := by
  induction pattern generalizing bytes with
  | nil => simp
  | cons e es ih =>
    cases bytes with
    | nil => simp at hlen
    | cons b bs =>
      rw [List.zip_cons_cons, List.all_cons, Bool.and_eq_true, List.length_cons,
        List.take_succ_cons, List.forall₂_cons, ih (by simpa using hlen)]
      cases e with
      | byte expected => simp [Accepts]
      | wildcard => simp [Accepts]

theorem patternMatches_iff {pattern : List SigElement} {bytes : List UInt8} :
    PatternMatches pattern bytes ↔ pattern.length ≤ bytes.length ∧
      List.Forall₂ Accepts pattern (bytes.take pattern.length) := by
  constructor
  · rintro ⟨head, rest, rfl, h⟩
    have hlen : pattern.length = head.length := h.length_eq
    rw [hlen, List.take_left, List.length_append]
    exact ⟨Nat.le_add_right _ _, h⟩
  · rintro ⟨hlen, h⟩
    exact ⟨bytes.take pattern.length, bytes.drop pattern.length,
      (List.take_append_drop _ _).symm, h⟩

theorem headMatches_iff {signature : FlirtSignature} {bytes : List UInt8} :
    signature.headMatches bytes = true ↔ PatternMatches signature.byteSig bytes := by
  rw [patternMatches_iff, FlirtSignature.headMatches, FlirtSignature.effectiveHeadLen,
    List.take_length]
  by_cases hlen : bytes.length < signature.byteSig.length
  · rw [if_pos hlen]
    exact iff_of_false Bool.false_ne_true fun h => absurd h.1 (not_le.mpr hlen)
  · rw [if_neg hlen, all_zip_iff (not_lt.mp hlen)]
    exact (and_iff_right (not_lt.mp hlen)).symm

instance (signature : FlirtSignature) (bytes : List UInt8) :
    Decidable (PatternMatches signature.byteSig bytes) :=
  decidable_of_iff _ headMatches_iff

/-! ## Masks and values -/

theorem selects_or (mask other : UInt8) (j : Nat) :
    selects (mask ||| other) j = (selects mask j || selects other j) := by
  have hand : (mask ||| other) &&& (1 <<< UInt8.ofNat j) =
      (mask &&& (1 <<< UInt8.ofNat j)) ||| (other &&& (1 <<< UInt8.ofNat j)) := by
    apply UInt8.toBitVec_inj.mp
    ext i
    simp only [UInt8.toBitVec_and, UInt8.toBitVec_or, BitVec.getElem_and, BitVec.getElem_or,
      Bool.and_or_distrib_right]
  rw [Bool.eq_iff_iff, Bool.or_eq_true]
  simp only [selects, bne_iff_ne, ne_eq]
  rw [hand, UInt8.or_eq_zero_iff]
  tauto

theorem selects_shiftLeft : ∀ i j : Fin 8,
    selects (1 <<< UInt8.ofNat i.val) j.val = decide (i = j) := by decide

/-- An element that is not a wildcard selects its own place. -/
theorem selects_addElement {acc : UInt8 × UInt64} {element : SigElement} {i j : Nat} (hi : i < 8)
    (hj : j < 8) : selects (addElement acc (element, i)).1 j =
      (selects acc.1 j || (decide (i = j) && decide (element ≠ .wildcard))) := by
  cases element with
  | wildcard => simp [addElement]
  | byte byte =>
    have hone : selects (1 <<< UInt8.ofNat i) j = decide (i = j) := by
      rw [selects_shiftLeft ⟨i, hi⟩ ⟨j, hj⟩]
      exact decide_eq_decide.mpr Fin.mk.inj_iff
    show selects (acc.1 ||| 1 <<< UInt8.ofNat i) j = _
    rw [selects_or, hone]
    simp

/-- The places before an element keep their marks. -/
theorem selects_foldl_before (es : List SigElement) {start : Nat} (acc : UInt8 × UInt64)
    (hlen : start + es.length ≤ 8) {j : Nat} (hj : j < start) :
    selects ((es.zipIdx start).foldl addElement acc).1 j = selects acc.1 j := by
  induction es generalizing start acc with
  | nil => rfl
  | cons e es ih =>
    rw [List.length_cons] at hlen
    rw [List.zipIdx_cons, List.foldl_cons, ih _ (by omega) (by omega),
      selects_addElement (by omega) (by omega), decide_eq_false (by omega)]
    simp

/-- The mask of a prefix selects the places of its bytes. -/
theorem selects_foldl (es : List SigElement) {start : Nat} (acc : UInt8 × UInt64)
    (hlen : start + es.length ≤ 8) (hfree : ∀ j, start ≤ j → j < 8 → selects acc.1 j = false)
    {i : Nat} {e : SigElement} (hi : es[i]? = some e) :
    selects ((es.zipIdx start).foldl addElement acc).1 (start + i) = decide (e ≠ .wildcard) := by
  induction es generalizing start acc i with
  | nil => simp at hi
  | cons e' es ih =>
    rw [List.length_cons] at hlen
    rw [List.zipIdx_cons, List.foldl_cons]
    cases i with
    | zero =>
      rw [List.getElem?_cons_zero, Option.some.injEq] at hi
      rw [selects_foldl_before es _ (by omega) (by omega), selects_addElement (by omega) (by omega),
        hfree _ (by omega) (by omega), hi]
      simp
    | succ i =>
      have hstart : start + (i + 1) = start + 1 + i := by omega
      rw [hstart]
      refine ih _ (by omega) (fun j hj hj8 => ?_) (by simpa using hi)
      rw [selects_addElement (by omega) hj8, hfree j (by omega) hj8, decide_eq_false (by omega)]
      rfl

/-- The bytes that a prefix accepts have its value under its mask. -/
theorem value_foldl {es : List SigElement} {bs : List UInt8} (h : List.Forall₂ Accepts es bs)
    {start : Nat} (acc : UInt8 × UInt64) {mask : UInt8}
    (hmask : ∀ i e, es[i]? = some e → selects mask (start + i) = decide (e ≠ .wildcard)) :
    ((bs.zipIdx start).filter fun e => selects mask e.2).foldl
      (fun value e => value ||| placed e.1 e.2) acc.2 =
    ((es.zipIdx start).foldl addElement acc).2 := by
  induction h generalizing start acc with
  | nil => rfl
  | @cons e b es bs he _ ih =>
    have hhead : selects mask start = decide (e ≠ .wildcard) := hmask 0 e rfl
    have htail : ∀ i e', es[i]? = some e' →
        selects mask (start + 1 + i) = decide (e' ≠ .wildcard) := by
      intro i e' hi
      rw [Nat.add_assoc, Nat.add_comm 1 i]
      exact hmask (i + 1) e' hi
    rw [List.zipIdx_cons, List.zipIdx_cons, List.foldl_cons, List.filter_cons, ← ih _ htail, hhead]
    cases e with
    | wildcard => rfl
    | byte expected =>
      have hb : expected = b := he
      rw [hb]
      rfl

/-- What starts as a signature does is looked up where the signature is filed. -/
theorem signaturePrefix_spec {signature : FlirtSignature} {bytes : List UInt8} {headLen : Nat}
    (hhead : headLen = min signature.byteSig.length prefixLen)
    (h : List.Forall₂ Accepts (signature.byteSig.take headLen) (bytes.take headLen)) :
    ∃ mask, signaturePrefix signature =
      (UInt8.ofNat headLen, mask, maskedPrefixValue (bytes.take headLen) mask) := by
  have hlen : (signature.byteSig.take headLen).length ≤ 8 := by
    rw [List.length_take, hhead]
    exact (min_le_left _ _).trans (min_le_right _ _)
  refine ⟨((signature.byteSig.take headLen).zipIdx.foldl addElement (0, 0)).1, ?_⟩
  rw [signaturePrefix, FlirtSignature.effectiveHeadLen, ← hhead, maskedPrefixValue,
    value_foldl h (0, 0) fun i e hi => selects_foldl _ _ (by omega) (fun j _ _ => ?_) hi]
  simp [selects]

/-! ## Lookups -/

theorem mem_filed {signatures : List FlirtSignature} {key : UInt8 × UInt8 × UInt64} {i : Nat} :
    (key, i) ∈ filed signatures ↔ ∃ s, signatures[i]? = some s ∧ signaturePrefix s = key := by
  unfold filed
  rw [List.mem_map]
  constructor
  · rintro ⟨⟨s, n⟩, hs, he⟩
    obtain ⟨hkey, rfl⟩ := Prod.mk.inj he
    exact ⟨s, List.mk_mem_zipIdx_iff_getElem?.mp hs, hkey⟩
  · rintro ⟨s, hs, hkey⟩
    exact ⟨(s, i), List.mk_mem_zipIdx_iff_getElem?.mpr hs, by rw [hkey]⟩

theorem mem_bucket {signatures : List FlirtSignature} {key : UInt8 × UInt8 × UInt64} {i : Nat} :
    i ∈ ((withSignatures signatures).prefixes.get? key).getD [] ↔ (key, i) ∈ filed signatures := by
  have hvalues : ((IndexMap.group (filed signatures)).get? key).getD [] =
      IndexMap.valuesOf (filed signatures) key := by
    rw [IndexMap.get?_group]
    split
    · next h => rw [h]; rfl
    · rfl
  show i ∈ ((IndexMap.group (filed signatures)).get? key).getD [] ↔ _
  rw [hvalues, IndexMap.mem_valuesOf]
  constructor
  · rintro ⟨⟨key', i'⟩, he, hkey, rfl⟩
    rw [← eq_of_beq hkey]
    exact he
  · exact fun h => ⟨(key, i), h, beq_self_eq_true key, rfl⟩

/-- The first eight bytes decide whether a matching signature is looked up. -/
theorem mem_lookup {signatures : List FlirtSignature} {bytes : List UInt8} {s : FlirtSignature}
    {i : Nat} (hs : signatures[i]? = some s)
    (h : List.Forall₂ Accepts (s.byteSig.take prefixLen) (bytes.take
      (min s.byteSig.length prefixLen))) :
    ∃ shape ∈ (withSignatures signatures).prefixShapes,
      i ∈ (withSignatures signatures).lookup bytes shape := by
  obtain ⟨headLen, hhead⟩ : ∃ n, n = min s.byteSig.length prefixLen := ⟨_, rfl⟩
  have hsmall : headLen ≤ 8 := hhead ▸ min_le_right _ _
  have htake : s.byteSig.take prefixLen = s.byteSig.take headLen := by
    rw [hhead, List.take_eq_take_iff]
    omega
  rw [← hhead, htake] at h
  obtain ⟨mask, hkey⟩ := signaturePrefix_spec hhead h
  have hfiled := mem_filed.mpr ⟨s, hs, hkey⟩
  refine ⟨toLex (UInt8.ofNat headLen, mask), ?_, ?_⟩
  · show _ ∈ (OrdSet.ofList _).toList
    rw [← OrdSet.mem_def, OrdSet.mem_ofList]
    exact List.mem_map.mpr ⟨_, hfiled, rfl⟩
  · have hnat : (UInt8.ofNat headLen).toNat = headLen := by
      rw [UInt8.toNat_ofNat']
      omega
    have hlen : headLen ≤ bytes.length := by
      have hlength := h.length_eq
      rw [List.length_take, List.length_take] at hlength
      omega
    show i ∈ if bytes.length < (UInt8.ofNat headLen).toNat then [] else _
    rw [hnat, if_neg (by omega)]
    refine mem_bucket.mpr ?_
    show ((UInt8.ofNat headLen, mask,
      maskedPrefixValue (bytes.take (UInt8.ofNat headLen).toNat) mask), i) ∈ _
    rw [hnat]
    exact hfiled

/-- A whole match starts with a match of the prefix. -/
theorem PatternMatches.start {pattern : List SigElement} {bytes : List UInt8}
    (h : PatternMatches pattern bytes) : List.Forall₂ Accepts (pattern.take prefixLen)
      (bytes.take (min pattern.length prefixLen)) := by
  have htake := List.forall₂_take prefixLen (patternMatches_iff.mp h).2
  rw [List.take_take, min_comm] at htake
  exact htake

/-- A query returns the signatures that match in full. -/
theorem match_eq_filter (signatures : List FlirtSignature) (bytes : List UInt8) :
    (withSignatures signatures).match bytes = signatures.filter fun s =>
      decide (PatternMatches s.byteSig bytes) && s.matchCrc16 bytes && s.matchTailBytes bytes &&
        s.matchFooter bytes := by
  obtain ⟨gathered, hgathered⟩ : ∃ gathered,
      gathered = (withSignatures signatures).prefixShapes.flatMap
        ((withSignatures signatures).lookup bytes) := ⟨_, rfl⟩
  obtain ⟨hsorted, hmem⟩ := distinctIndices_spec gathered
  have hhead : (pick signatures (distinctIndices gathered)).filter (fun s => s.headMatches bytes) =
      signatures.filter fun s => s.headMatches bytes := by
    refine filter_pick hsorted fun i s hs hmatches => (hmem i).mpr ?_
    obtain ⟨shape, hshape, hi⟩ := mem_lookup hs (headMatches_iff.mp hmatches).start
    rw [hgathered]
    exact List.mem_flatMap.mpr ⟨shape, hshape, hi⟩
  have hdecide : ∀ s : FlirtSignature, s.headMatches bytes =
      decide (PatternMatches s.byteSig bytes) := by
    intro s
    rw [Bool.eq_iff_iff, decide_eq_true_iff]
    exact headMatches_iff
  unfold «match»
  rw [← hgathered]
  show ((((pick signatures _).filter _).filter _).filter _).filter _ = _
  rw [hhead, List.filter_filter, List.filter_filter, List.filter_filter]
  refine List.filter_congr fun s _ => ?_
  rw [hdecide]
  ac_rfl

/-- A signature that is looked up and names a local symbol away from its root. -/
theorem hasLocalCandidate_of_matches {signatures : List FlirtSignature} {bytes : List UInt8}
    {s : FlirtSignature} (hs : s ∈ signatures) (hmatches : PatternMatches s.byteSig bytes)
    {name : Name} (hname : .local name ∈ s.names) (hoffset : name.offset ≠ 0) :
    (withSignatures signatures).hasLocalCandidate (bytes.take prefixLen) = true := by
  obtain ⟨i, hi⟩ := List.mem_iff_getElem?.mp hs
  have hfirst := hmatches.start
  have htake : bytes.take (min s.byteSig.length prefixLen) =
      (bytes.take prefixLen).take (min s.byteSig.length prefixLen) := by
    have hsmall : min s.byteSig.length prefixLen ≤ prefixLen := Nat.min_le_right _ _
    rw [List.take_take, min_eq_left hsmall]
  rw [htake] at hfirst
  obtain ⟨shape, hshape, hlookup⟩ := mem_lookup hi hfirst
  refine List.any_eq_true.mpr ⟨shape, hshape, List.any_eq_true.mpr ⟨s, ?_, ?_⟩⟩
  · exact List.mem_filterMap.mpr ⟨i, hlookup, hi⟩
  · exact List.any_eq_true.mpr ⟨.local name, hname, bne_iff_ne.mpr hoffset⟩

/-- The index loses nothing: a query returns the signatures that match in full, in order, and what
    it returns with a local name away from the root shows in the first eight bytes. -/
theorem match_lossless (signatures : List FlirtSignature) (bytes : List UInt8) :
    (withSignatures signatures).match bytes = (signatures.filter fun s =>
      decide (PatternMatches s.byteSig bytes) && s.matchCrc16 bytes && s.matchTailBytes bytes &&
        s.matchFooter bytes) ∧
    ((∃ s ∈ (withSignatures signatures).match bytes, ∃ name, Symbol.local name ∈ s.names ∧
      name.offset ≠ 0) → (withSignatures signatures).hasLocalCandidate (bytes.take 8) = true) := by
  refine ⟨match_eq_filter signatures bytes, ?_⟩
  rintro ⟨s, hs, name, hname, hoffset⟩
  rw [match_eq_filter] at hs
  obtain ⟨hmem, htests⟩ := List.mem_filter.mp hs
  simp only [Bool.and_eq_true, decide_eq_true_eq] at htests
  exact hasLocalCandidate_of_matches hmem htests.1.1.1 hname hoffset

/-- A signature with a wildcard and a local name after its root. -/
def wildcardSignature : FlirtSignature where
  byteSig := [.byte 0x55, .wildcard, .byte 0xec]
  names := [.public ⟨0, "root"⟩, .local ⟨3, "next"⟩]
  matchCrc16 _ := true
  matchTailBytes _ := true
  matchFooter _ := true

theorem match_lossless_wildcard :
    (withSignatures [wildcardSignature]).hasLocalCandidate [0x55, 0x8b, 0xec, 0x90] = true := by
  refine (match_lossless [wildcardSignature] [0x55, 0x8b, 0xec, 0x90]).2 ?_
  rw [(match_lossless [wildcardSignature] [0x55, 0x8b, 0xec, 0x90]).1]
  exact ⟨wildcardSignature, List.mem_filter.mpr ⟨List.mem_cons_self, by decide⟩, ⟨3, "next"⟩,
    by decide, by decide⟩

end SignatureMatcher

end CapaX.Recovery
