import CapaX.Loader.Mapping
import Mathlib.Data.Nat.Bitwise

/-
  Delay imports (`image.rs`, `load_pe_delay_imports`): a table of descriptors, and for each the
  thunks of its import name table, bound one by one in its import address table. A run logs the
  tables of each descriptor and each thunk that it binds. The names a thunk gets are a parameter.
-/

namespace CapaX.Loader

open Collections Control Control.Logged Recovery

/-- The names of imports: ordinals by library, the variants of a symbol, and the location's name. -/
structure ImportNames where
  resolvePeOrdinal : String → Nat → Option String
  generateSymbols : String → String → List String
  importLocationName : String → String → String

def maxDelayDescriptors : Nat := 4096

def maxDelayImports : Nat := 65536

/-- What is read of a descriptor. -/
structure DelayDescriptor where
  usesRvas : Bool
  nameRva : UInt64
  iatRva : UInt64
  intRva : UInt64
  deriving DecidableEq

namespace Mapped

variable (m : Mapped)

/-! ## Reading -/

def readArrayAtRva (n : Nat) (rva : UInt64) : Loading (List UInt8) := do
  let address ← orFail (checkedAdd m.imageBase rva.toNat) (.addressOverflow .pe "RVA read")
  let bytes ← orFail (m.bytesAt address n) (.delayImport rva s!"cannot read {n} mapped bytes")
  if bytes.length = n then pure bytes
  else throwFault (.delayImport rva s!"expected {n} bytes, found {bytes.length}")

def delayFieldToRva (value : UInt64) (usesRvas : Bool) : Loading UInt64 :=
  if usesRvas then pure value
  else orFail (checkedSub value m.imageBase) (.delayImport value "VA lies below the image base")

def readPointerAtRva (rva : UInt64) : Loading UInt64 :=
  if m.architecture = .x64 then do
    let bytes ← m.readArrayAtRva 8 rva
    pure (fromLeBytes bytes)
  else do
    let bytes ← m.readArrayAtRva 4 rva
    pure (fromLeBytes bytes)

def readU32Field (raw : List UInt8) (offset : Nat) : UInt64 :=
  fromLeBytes ((raw.drop offset).take 4)

def readAsciiCstrAtRva (rva : UInt64) : Loading String := do
  let address ← orFail (checkedAdd m.imageBase rva.toNat) (.addressOverflow .pe "string RVA")
  let entry ← orFail
    ((m.regions.sections.zip m.regions.files).find? fun entry => entry.1.containsVa address)
    (.delayImport rva "string is outside mapped sections")
  let relative ← orFail (checkedSub address entry.1.address)
    (.addressOverflow .pe "string section offset")
  let remaining := entry.2.size.toNat - relative.toNat
  let bytes ← orFail (m.bytesAt address remaining) (.delayImport rva "string is not file-backed")
  let stop ← orFail (bytes.findIdx? (· == 0)) (.delayImport rva "unterminated string")
  let value := bytes.take stop
  if value.all (· < 128) then
    pure (String.ofList (value.map fun byte => Char.ofNat byte.toNat))
  else if (ElfOs.utf8 value).isSome then throwFault (.delayImport rva "non-ASCII string")
  else throwFault (.delayImport rva "non-UTF-8 string")

/-- One descriptor, or `none` for the zero that ends the table. -/
def readDescriptor (directory : DataDirectory) (index : Nat) :
    Loading (Option DelayDescriptor) := do
  let rva ← orFail (checkedAdd directory.virtualAddress.toUInt64 (index * 32))
    (.addressOverflow .pe "delay import descriptor")
  let raw ← m.readArrayAtRva 32 rva
  if raw.all (· == 0) then pure none
  else
    let usesRvas := readU32Field raw 0 &&& 1 != 0
    let nameRva ← m.delayFieldToRva (readU32Field raw 4) usesRvas
    let iatRva ← m.delayFieldToRva (readU32Field raw 12) usesRvas
    let intRva ← m.delayFieldToRva (readU32Field raw 16) usesRvas
    if nameRva = 0 ∨ iatRva = 0 ∨ intRva = 0 then
      throwFault (.delayImport rva "descriptor has a zero name, IAT, or INT address")
    else pure (some ⟨usesRvas, nameRva, iatRva, intRva⟩)

/-! ## Binding -/

def pointerSize : Nat := if m.architecture = .x64 then 8 else 4

def ordinalMask : UInt64 := if m.pointerSize = 8 then 0x8000000000000000 else 0x80000000

/-- A thunk that is not the terminator. -/
def thunkOf (value : UInt64) : Thunk :=
  if value &&& m.ordinalMask ≠ 0 then .byOrdinal (value &&& 0xffff).toNat else .byName value

section

variable (names : ImportNames) (descriptor : DelayDescriptor) (dll : String)

def symbolOf : Thunk → Loading String
  | .byOrdinal ordinal => pure ((names.resolvePeOrdinal dll ordinal).getD s!"#{ordinal}")
  | .byName value => do
    let rva ← m.delayFieldToRva value descriptor.usesRvas
    let name ← orFail (checkedAdd rva 2) (.addressOverflow .pe "delay import hint/name")
    m.readAsciiCstrAtRva name

/-- The thunks from `index` on; at most so many are left. -/
def bindThunks : Nat → Nat → Bindings → Loading Bindings
  | 0, _, _ =>
    throwFault (.delayImport descriptor.intRva
      s!"import thunk count exceeds limit {maxDelayImports} without a terminator")
  | left + 1, index, bindings => do
    let relative ← orFail (ElfOs.checkedMul index m.pointerSize)
      (.addressOverflow .pe "delay import thunk")
    let thunkRva ← orFail (checkedAdd descriptor.intRva relative)
      (.addressOverflow .pe "delay import thunk")
    let value ← m.readPointerAtRva thunkRva
    if value = 0 then pure bindings
    else
      let thunk := m.thunkOf value
      let symbol ← symbolOf m names descriptor dll thunk
      let bindingRva ← orFail (checkedAdd descriptor.iatRva relative)
        (.addressOverflow .pe "delay IAT binding")
      let address ← orFail (checkedAdd m.imageBase bindingRva.toNat)
        (.addressOverflow .pe "delay IAT binding")
      emit (.bound ⟨address, thunk, dll, symbol⟩)
      bindThunks left (index + 1)
        ((bindings.addExternalBinding address (names.generateSymbols dll symbol)).insertLocation
          address (names.importLocationName dll symbol))

end

section

variable (names : ImportNames) (directory : DataDirectory)

/-- The descriptors from `index` on, `left` of them. -/
def bindDescriptors : Nat → Nat → Bindings → Loading Bindings
  | 0, _, bindings => pure bindings
  | left + 1, index, bindings => do
    match ← m.readDescriptor directory index with
    | none => pure bindings
    | some descriptor =>
      let dll ← m.readAsciiCstrAtRva descriptor.nameRva
      emit (.tables descriptor.iatRva descriptor.intRva)
      let bindings ← m.bindThunks names descriptor dll maxDelayImports 0 bindings
      bindDescriptors left (index + 1) bindings

end

/-- The directory is the fourteenth of the optional header; an incomplete descriptor at its end is
    not read. -/
def loadPeDelayImports (names : ImportNames) (header : OptionalHeader) (bindings : Bindings) :
    Loading Bindings :=
  match header.dataDirectories[13]? with
  | some (some directory) =>
    if directory.virtualAddress = 0 ∨ directory.size = 0 then pure bindings
    else
      let count := directory.size.toNat / 32
      if maxDelayDescriptors < count then
        throwFault (.delayImport directory.virtualAddress.toUInt64
          s!"descriptor count {count} exceeds limit {maxDelayDescriptors}")
      else m.bindDescriptors names directory count 0 bindings
  | _ => pure bindings

end Mapped

/-! ## What is promised -/

namespace Mapped

variable (m : Mapped)

/-- The number in `width` mapped bytes. -/
def pointerAt (width : Nat) (rva : UInt64) : Option UInt64 := do
  let address ← checkedAdd m.imageBase rva.toNat
  let bytes ← m.bytesAt address width
  if bytes.length = width then some (fromLeBytes bytes) else none

/-- The `k`-th thunk of a table. -/
def thunkAt (width : Nat) (table : UInt64) (k : Nat) : Option UInt64 :=
  (checkedAdd table (k * width)).bind (m.pointerAt width)

/-- A thunk of `width` bytes: an ordinal when its top bit is set, else a name. -/
def readThunk (width : Nat) (value : UInt64) : Thunk :=
  if value.toNat.testBit (8 * width - 1) then .byOrdinal (value.toNat % 2 ^ 16) else .byName value

/-- The thunks of a descriptor's table from the `k`-th on, up to the first that is zero: the symbol
    of each is bound as far into the import address table. -/
inductive BindsFrom (names : ImportNames) (width : Nat) (descriptor : DelayDescriptor)
    (dll : String) : Nat → List DelayBinding → Prop
  | done {k : Nat} (hzero : m.thunkAt width descriptor.intRva k = some 0) :
    BindsFrom names width descriptor dll k []
  | next {k : Nat} {value address : UInt64} {symbol : String} {bound : List DelayBinding}
    (hread : m.thunkAt width descriptor.intRva k = some value) (hne : value ≠ 0)
    (hsymbol : (symbolOf m names descriptor dll (readThunk width value)).outcome = .ok symbol)
    (haddress : address.toNat = m.imageBase.toNat + descriptor.iatRva.toNat + k * width)
    (hrest : BindsFrom names width descriptor dll (k + 1) bound) :
    BindsFrom names width descriptor dll k (⟨address, readThunk width value, dll, symbol⟩ :: bound)

/-- The descriptors up to the zero, or up to one that cannot be read. -/
def descriptorsFrom (directory : DataDirectory) : Nat → Nat → List DelayDescriptor
  | 0, _ => []
  | left + 1, index =>
    match (m.readDescriptor directory index).outcome with
    | .ok (some descriptor) => descriptor :: descriptorsFrom directory left (index + 1)
    | _ => []

def delayDescriptors (header : OptionalHeader) : List DelayDescriptor :=
  match header.dataDirectories[13]? with
  | some (some directory) =>
    if directory.virtualAddress = 0 ∨ directory.size = 0 then []
    else m.descriptorsFrom directory (directory.size.toNat / 32) 0
  | _ => []

end Mapped

/-- The bindings that a run logs. -/
def bindingsOf (log : List Event) : List DelayBinding :=
  log.filterMap fun event =>
    match event with
    | .bound binding => some binding
    | _ => none

namespace Mapped

variable (m : Mapped)

/-- What is bound for one descriptor. -/
def boundBy (names : ImportNames) (descriptor : DelayDescriptor) : List DelayBinding :=
  match (m.readAsciiCstrAtRva descriptor.nameRva).outcome with
  | .ok dll => bindingsOf (m.bindThunks names descriptor dll maxDelayImports 0 ⟨∅, ∅⟩).log
  | .error _ => []

end Mapped

/-- The maps after a run have the addresses they had and those that were bound. Under these there
    are the names generated from the symbols, and the location of the symbol that came last. -/
structure Gains (names : ImportNames) (before : Bindings) (bound : List DelayBinding)
    (after : Bindings) : Prop where
  external : ∀ a, (after.external.get? a).isSome = true ↔
    (before.external.get? a).isSome = true ∨ ∃ b ∈ bound, b.address = a
  symbols : ∀ a name, name ∈ (after.external.get? a).getD [] ↔
    name ∈ (before.external.get? a).getD [] ∨
      ∃ b ∈ bound, b.address = a ∧ name ∈ names.generateSymbols b.dll b.symbol
  locations : ∀ a, after.locations.get? a =
    (((bound.filter fun b => decide (b.address = a)).getLast?.map fun b =>
      names.importLocationName b.dll b.symbol).or (before.locations.get? a))

namespace Mapped

variable (m : Mapped)

/-- Every table is decoded with thunks of the architecture's pointer width, and the maps gain what
    is bound and nothing else. -/
def DelaySound (names : ImportNames) (header : OptionalHeader) (before after : Bindings) : Prop :=
  (∀ d ∈ m.delayDescriptors header, ∃ dll, (m.readAsciiCstrAtRva d.nameRva).outcome = .ok dll ∧
    m.BindsFrom names m.architecture.pointerWidth d dll 0 (m.boundBy names d)) ∧
  Gains names before ((m.delayDescriptors header).flatMap (m.boundBy names)) after

/-- A table on which thunks of four and of eight bytes come to the same: it is empty, or its one
    thunk is a name or an ordinal either way, with a zero behind its first four bytes. -/
def NarrowTable (descriptor : DelayDescriptor) : Prop :=
  m.thunkAt 8 descriptor.intRva 0 = some 0 ∨
    ∃ v, m.thunkAt 8 descriptor.intRva 0 = some v ∧ m.thunkAt 8 descriptor.intRva 1 = some 0 ∧
      m.thunkAt 4 descriptor.intRva 1 = some 0 ∧
      ((v ≠ 0 ∧ v.toNat < 2 ^ 31) ∨ (v.toNat.testBit 63 = true ∧ v.toNat.testBit 31 = true))

/-! ## Readers -/

section

variable {α : Type} {o : Option α} {error : ImageError} {a : α}

theorem outcome_orFail : (orFail o error).outcome = .ok a ↔ o = some a := by
  cases o with
  | none => simp [orFail, throwFault]
  | some b =>
    rw [orFail, Option.some.injEq]
    exact Except.ok.injEq b a ▸ Iff.rfl

theorem log_orFail : (orFail o error : Loading α).log = [] := by
  cases o with
  | none => rfl
  | some b => rfl

end

variable {m}

theorem outcome_readArrayAtRva {n : Nat} {rva : UInt64} {bytes : List UInt8} :
    (m.readArrayAtRva n rva).outcome = .ok bytes ↔
      ∃ address, checkedAdd m.imageBase rva.toNat = some address ∧
        m.bytesAt address n = some bytes ∧ bytes.length = n := by
  simp only [readArrayAtRva, outcome_bind, outcome_orFail]
  constructor
  · intro ⟨address, haddress, found, hfound, hout⟩
    split at hout
    · rename_i hlen
      obtain rfl := Except.ok.inj hout
      exact ⟨address, haddress, hfound, hlen⟩
    · cases hout
  · intro ⟨address, haddress, hfound, hlen⟩
    refine ⟨address, haddress, bytes, hfound, ?_⟩
    rw [if_pos hlen]
    rfl

theorem outcome_readPointerAtRva {rva v : UInt64} :
    (m.readPointerAtRva rva).outcome = .ok v ↔ m.pointerAt m.pointerSize rva = some v := by
  have hwidth : ∀ n, ((m.readArrayAtRva n rva) >>= fun bytes => pure (fromLeBytes bytes) :
      Loading UInt64).outcome = .ok v ↔ m.pointerAt n rva = some v := by
    intro n
    simp only [outcome_bind, outcome_readArrayAtRva, pointerAt, Option.bind_eq_bind,
      Option.bind_eq_some_iff]
    constructor
    · intro ⟨bytes, ⟨address, haddress, hbytes, hlen⟩, hout⟩
      refine ⟨address, haddress, bytes, hbytes, ?_⟩
      rw [if_pos hlen]
      exact congrArg some (Except.ok.inj hout)
    · intro ⟨address, haddress, bytes, hbytes, hout⟩
      split at hout
      · rename_i hlen
        exact ⟨bytes, ⟨address, haddress, hbytes, hlen⟩, congrArg Except.ok (Option.some.inj hout)⟩
      · cases hout
  rw [readPointerAtRva, pointerSize]
  by_cases harch : m.architecture = .x64
  · rw [if_pos harch, if_pos harch]
    exact hwidth 8
  · rw [if_neg harch, if_neg harch]
    exact hwidth 4

theorem quiet_orFail {α : Type} {o : Option α} {error : ImageError} :
    Quiet (orFail o error : Loading α) := log_orFail

theorem quiet_readArrayAtRva (n : Nat) (rva : UInt64) : Quiet (m.readArrayAtRva n rva) := by
  refine quiet_orFail.bind fun address => quiet_orFail.bind fun bytes => ?_
  split
  · exact quiet_pure _
  · exact quiet_throwFault _

theorem quiet_delayFieldToRva (value : UInt64) (usesRvas : Bool) :
    Quiet (m.delayFieldToRva value usesRvas) := by
  unfold delayFieldToRva
  split
  · rfl
  · exact quiet_orFail

theorem quiet_readPointerAtRva (rva : UInt64) : Quiet (m.readPointerAtRva rva) := by
  unfold readPointerAtRva
  split
  · exact (quiet_readArrayAtRva 8 rva).bind fun _ => quiet_pure _
  · exact (quiet_readArrayAtRva 4 rva).bind fun _ => quiet_pure _

theorem quiet_readAsciiCstrAtRva (rva : UInt64) : Quiet (m.readAsciiCstrAtRva rva) := by
  refine quiet_orFail.bind fun _ => quiet_orFail.bind fun _ => quiet_orFail.bind fun _ =>
    quiet_orFail.bind fun _ => quiet_orFail.bind fun stop => ?_
  dsimp only
  split
  · exact quiet_pure _
  · split
    · exact quiet_throwFault _
    · exact quiet_throwFault _

theorem quiet_readDescriptor (directory : DataDirectory) (index : Nat) :
    Quiet (m.readDescriptor directory index) := by
  refine quiet_orFail.bind fun rva => (quiet_readArrayAtRva 32 rva).bind fun raw => ?_
  split
  · exact quiet_pure _
  · refine (quiet_delayFieldToRva _ _).bind fun _ => (quiet_delayFieldToRva _ _).bind fun _ =>
      (quiet_delayFieldToRva _ _).bind fun _ => ?_
    split
    · exact quiet_throwFault _
    · exact quiet_pure _

theorem quiet_symbolOf (names : ImportNames) (descriptor : DelayDescriptor) (dll : String)
    (thunk : Thunk) : Quiet (symbolOf m names descriptor dll thunk) := by
  cases thunk with
  | byOrdinal ordinal => rfl
  | byName value =>
    exact (quiet_delayFieldToRva _ _).bind fun _ => quiet_orFail.bind fun _ =>
      quiet_readAsciiCstrAtRva _

/-! ## Thunks -/

theorem and_ne_zero_iff {value mask : UInt64} {i : Nat} (hmask : mask.toNat = 2 ^ i) :
    value &&& mask ≠ 0 ↔ value.toNat.testBit i = true := by
  have hzero : value &&& mask = 0 ↔ (value &&& mask).toNat = 0 := by
    rw [← UInt64.toNat_inj]
    rfl
  rw [Ne, hzero, UInt64.toNat_and, hmask, Nat.and_two_pow]
  cases value.toNat.testBit i with
  | false => simp
  | true => simp

/-- The mask tests the top bit of a thunk of the size that is read. -/
theorem thunkOf_eq (value : UInt64) : m.thunkOf value = readThunk m.pointerSize value := by
  have hlow : (value &&& 0xffff).toNat = value.toNat % 2 ^ 16 := by
    rw [UInt64.toNat_and]
    exact Nat.and_two_pow_sub_one_eq_mod value.toNat 16
  have htop : value &&& m.ordinalMask ≠ 0 ↔
      value.toNat.testBit (8 * m.pointerSize - 1) = true := by
    rw [ordinalMask, pointerSize]
    by_cases harch : m.architecture = .x64
    · rw [if_pos harch, if_pos rfl]
      exact and_ne_zero_iff (i := 63) rfl
    · rw [if_neg harch, if_neg (by decide)]
      exact and_ne_zero_iff (i := 31) rfl
  rw [thunkOf, readThunk, hlow]
  by_cases h : value &&& m.ordinalMask ≠ 0
  · rw [if_pos h, if_pos (htop.mp h)]
  · rw [if_neg h, if_neg (mt htop.mpr h)]

end Mapped

/-! ## Binding -/

theorem gains_none (names : ImportNames) (bindings : Bindings) :
    Gains names bindings [] bindings where
  external _ := by simp
  symbols _ _ := by simp
  locations _ := rfl

theorem Gains.append {names : ImportNames} {b₁ b₂ b₃ : Bindings} {bound bound' : List DelayBinding}
    (h : Gains names b₁ bound b₂) (h' : Gains names b₂ bound' b₃) :
    Gains names b₁ (bound ++ bound') b₃ where
  external a := by
    rw [h'.external, h.external, or_assoc]
    simp only [List.mem_append, or_and_right, exists_or]
  symbols a name := by
    rw [h'.symbols, h.symbols, or_assoc]
    simp only [List.mem_append, or_and_right, exists_or]
  locations a := by
    rw [h'.locations, h.locations, List.filter_append, List.getLast?_append, Option.map_or,
      Option.or_assoc]

/-- The names of a list join those that there are. -/
theorem mem_foldl_contains {names bound : List String} {name : String} :
    name ∈ names.foldl (fun bound name => if bound.contains name then bound else bound ++ [name])
      bound ↔ name ∈ bound ∨ name ∈ names := by
  induction names generalizing bound with
  | nil => simp
  | cons first names ih =>
    rw [List.foldl_cons, ih, List.mem_cons, ← or_assoc]
    refine or_congr_left ?_
    split
    · rename_i hcontains
      have hmem : first ∈ bound := List.contains_iff_mem.mp hcontains
      exact ⟨Or.inl, fun h => h.elim id fun he => he ▸ hmem⟩
    · rw [List.mem_append, List.mem_singleton]

theorem gains_bind (names : ImportNames) (bindings : Bindings) (b : DelayBinding) :
    Gains names bindings [b]
      ((bindings.addExternalBinding b.address (names.generateSymbols b.dll b.symbol)).insertLocation
        b.address (names.importLocationName b.dll b.symbol)) where
  external a := by
    simp only [Bindings.insertLocation, Bindings.addExternalBinding, OrdMap.get?_upsert]
    by_cases ha : a = b.address
    · simp [ha]
    · simp [ha, Ne.symm ha]
  symbols a name := by
    simp only [Bindings.insertLocation, Bindings.addExternalBinding, OrdMap.get?_upsert]
    by_cases ha : a = b.address
    · rw [if_pos ha, Option.getD_some, mem_foldl_contains, ha]
      simp
    · simp [ha, Ne.symm ha]
  locations a := by
    simp only [Bindings.insertLocation, Bindings.addExternalBinding, OrdMap.get?_upsert]
    by_cases ha : a = b.address
    · simp [ha]
    · simp [ha, Ne.symm ha]

namespace Mapped

variable {m : Mapped} {names : ImportNames}

theorem checkedAdd_toNat {a b : UInt64} {n : Nat} (h : checkedAdd a n = some b) :
    b.toNat = a.toNat + n := by
  unfold checkedAdd at h
  split at h
  · rename_i hlt
    obtain rfl := Option.some.inj h
    exact Nat.mod_eq_of_lt hlt
  · cases h

/-- One turn: the table ends at `index`, or its thunk is bound and the next turn follows. -/
theorem bindThunks_turn {descriptor : DelayDescriptor} {dll : String} {left index : Nat}
    {bindings after : Bindings}
    (h : (m.bindThunks names descriptor dll (left + 1) index bindings).outcome = .ok after) :
    (m.thunkAt m.pointerSize descriptor.intRva index = some 0 ∧ after = bindings ∧
      (m.bindThunks names descriptor dll (left + 1) index bindings).log = []) ∨
    ∃ value address symbol, m.thunkAt m.pointerSize descriptor.intRva index = some value ∧
      value ≠ 0 ∧ (symbolOf m names descriptor dll (readThunk m.pointerSize value)).outcome =
        .ok symbol ∧
      address.toNat = m.imageBase.toNat + descriptor.iatRva.toNat + index * m.pointerSize ∧
      (m.bindThunks names descriptor dll left (index + 1)
        ((bindings.addExternalBinding address (names.generateSymbols dll symbol)).insertLocation
          address (names.importLocationName dll symbol))).outcome = .ok after ∧
      (m.bindThunks names descriptor dll (left + 1) index bindings).log =
        .bound ⟨address, readThunk m.pointerSize value, dll, symbol⟩ ::
          (m.bindThunks names descriptor dll left (index + 1)
            ((bindings.addExternalBinding address (names.generateSymbols dll symbol)).insertLocation
              address (names.importLocationName dll symbol))).log := by
  rw [bindThunks] at h ⊢
  obtain ⟨relative, hrelative, h⟩ := outcome_bind.mp h
  obtain ⟨thunkRva, hthunk, h⟩ := outcome_bind.mp h
  obtain ⟨value, hvalue, h⟩ := outcome_bind.mp h
  rw [log_bind hrelative, log_orFail, log_bind hthunk, log_orFail, log_bind hvalue,
    quiet_readPointerAtRva thunkRva]
  have hsize : relative = index * m.pointerSize := by
    have := outcome_orFail.mp hrelative
    unfold ElfOs.checkedMul at this
    split at this
    · exact (Option.some.inj this).symm
    · cases this
  have hread : m.thunkAt m.pointerSize descriptor.intRva index = some value := by
    rw [thunkAt, ← hsize, outcome_orFail.mp hthunk]
    exact outcome_readPointerAtRva.mp hvalue
  by_cases hzero : value = 0
  · rw [if_pos hzero] at h ⊢
    subst hzero
    exact Or.inl ⟨hread, (Except.ok.inj h).symm, rfl⟩
  · rw [if_neg hzero] at h ⊢
    obtain ⟨symbol, hsymbol, h⟩ := outcome_bind.mp h
    obtain ⟨bindingRva, hbinding, h⟩ := outcome_bind.mp h
    obtain ⟨address, haddress, h⟩ := outcome_bind.mp h
    obtain ⟨_, hemit, h⟩ := outcome_bind.mp h
    refine Or.inr ⟨value, address, symbol, hread, hzero, thunkOf_eq value ▸ hsymbol, ?_, h, ?_⟩
    · have h₁ := checkedAdd_toNat (outcome_orFail.mp hbinding)
      have h₂ := checkedAdd_toNat (outcome_orFail.mp haddress)
      omega
    · rw [log_bind hsymbol, quiet_symbolOf, log_bind hbinding, log_orFail, log_bind haddress,
        log_orFail, log_bind hemit, thunkOf_eq]
      rfl

theorem bindThunks_spec {descriptor : DelayDescriptor} {dll : String} (left index : Nat)
    {bindings after : Bindings}
    (h : (m.bindThunks names descriptor dll left index bindings).outcome = .ok after) :
    ∃ bound, bound = bindingsOf (m.bindThunks names descriptor dll left index bindings).log ∧
      m.BindsFrom names m.pointerSize descriptor dll index bound ∧
      Gains names bindings bound after := by
  induction left generalizing index bindings with
  | zero => cases h
  | succ left ih =>
    rcases bindThunks_turn h with ⟨hzero, hafter, hlog⟩ |
      ⟨value, address, symbol, hread, hne, hsymbol, haddress, hrest, hlog⟩
    · rw [hlog, hafter]
      exact ⟨[], rfl, .done hzero, gains_none names bindings⟩
    · obtain ⟨bound, hbound, hbinds, hgains⟩ := ih (index + 1) hrest
      rw [hlog]
      refine ⟨⟨address, readThunk m.pointerSize value, dll, symbol⟩ :: bound, ?_,
        .next hread hne hsymbol haddress hbinds, ?_⟩
      · rw [hbound]
        rfl
      · exact (gains_bind names bindings ⟨address, _, dll, symbol⟩).append hgains

/-- What is bound does not depend on what was bound before. -/
theorem log_bindThunks (descriptor : DelayDescriptor) (dll : String) (left index : Nat)
    (bindings bindings' : Bindings) :
    (m.bindThunks names descriptor dll left index bindings).log =
      (m.bindThunks names descriptor dll left index bindings').log := by
  induction left generalizing index bindings bindings' with
  | zero => rfl
  | succ left ih =>
    rw [bindThunks, bindThunks]
    refine log_bind_congr fun relative => log_bind_congr fun thunkRva =>
      log_bind_congr fun value => ?_
    by_cases hzero : value = 0
    · rw [if_pos hzero, if_pos hzero]
      rfl
    · rw [if_neg hzero, if_neg hzero]
      refine log_bind_congr fun symbol => log_bind_congr fun bindingRva =>
        log_bind_congr fun address => log_bind_congr fun _ => ?_
      exact ih _ _ _

/-- The tables of the descriptors, read with thunks of the size that is used. -/
def TablesBound (m : Mapped) (names : ImportNames) (descriptors : List DelayDescriptor) : Prop :=
  ∀ d ∈ descriptors, ∃ dll, (m.readAsciiCstrAtRva d.nameRva).outcome = .ok dll ∧
    m.BindsFrom names m.pointerSize d dll 0 (m.boundBy names d)

theorem bindDescriptors_spec {directory : DataDirectory} (left index : Nat)
    {bindings after : Bindings}
    (h : (m.bindDescriptors names directory left index bindings).outcome = .ok after) :
    m.TablesBound names (m.descriptorsFrom directory left index) ∧
      Gains names bindings ((m.descriptorsFrom directory left index).flatMap (m.boundBy names))
        after := by
  induction left generalizing index bindings with
  | zero =>
    obtain rfl := Except.ok.inj h
    exact ⟨fun d hd => absurd hd List.not_mem_nil, gains_none names bindings⟩
  | succ left ih =>
    rw [bindDescriptors] at h
    obtain ⟨found, hfound, h⟩ := outcome_bind.mp h
    rw [descriptorsFrom, hfound]
    cases found with
    | none =>
      obtain rfl := Except.ok.inj h
      exact ⟨fun d hd => absurd hd List.not_mem_nil, gains_none names bindings⟩
    | some descriptor =>
      obtain ⟨dll, hdll, h⟩ := outcome_bind.mp h
      obtain ⟨_, -, h⟩ := outcome_bind.mp h
      obtain ⟨between, hthunks, h⟩ := outcome_bind.mp h
      obtain ⟨bound, hbound, hbinds, hgains⟩ := bindThunks_spec maxDelayImports 0 hthunks
      obtain ⟨hrest, hgains'⟩ := ih (index + 1) h
      have hlog : m.boundBy names descriptor = bound := by
        rw [boundBy, hdll, hbound]
        exact congrArg bindingsOf
          (log_bindThunks descriptor dll maxDelayImports 0 ⟨∅, ∅⟩ bindings)
      rw [← hlog] at hbinds hgains
      refine ⟨fun d hd => ?_, hgains.append hgains'⟩
      rcases List.mem_cons.mp hd with rfl | hd
      · exact ⟨dll, hdll, hbinds⟩
      · exact hrest d hd

theorem loadPeDelayImports_spec {header : OptionalHeader} {bindings after : Bindings}
    (h : (m.loadPeDelayImports names header bindings).outcome = .ok after) :
    m.TablesBound names (m.delayDescriptors header) ∧
      Gains names bindings ((m.delayDescriptors header).flatMap (m.boundBy names)) after := by
  unfold loadPeDelayImports at h
  unfold delayDescriptors
  split at h
  · rename_i directory _
    by_cases hempty : directory.virtualAddress = 0 ∨ directory.size = 0
    · rw [if_pos hempty] at h ⊢
      obtain rfl := Except.ok.inj h
      exact ⟨fun d hd => absurd hd List.not_mem_nil, gains_none names bindings⟩
    · rw [if_neg hempty] at h ⊢
      dsimp only at h
      split at h
      · cases h
      · exact bindDescriptors_spec _ 0 h
  · obtain rfl := Except.ok.inj h
    exact ⟨fun d hd => absurd hd List.not_mem_nil, gains_none names bindings⟩

/-! ## Thunks of four and of eight bytes -/

theorem bytesAt_take {address : UInt64} {n k : Nat} {bytes : List UInt8}
    (h : m.bytesAt address n = some bytes) (hk : k ≤ n) :
    m.bytesAt address k = some (bytes.take k) := by
  unfold bytesAt LoadedImage.bytesAt at h ⊢
  simp only [Option.bind_eq_bind, Option.bind_eq_some_iff] at h ⊢
  obtain ⟨entry, hentry, relative, hrelative, data, hdata, hbytes⟩ := h
  refine ⟨entry, hentry, relative, hrelative, data, hdata, ?_⟩
  split at hbytes
  · rename_i hle
    obtain rfl := Option.some.inj hbytes
    rw [if_pos hle, List.take_take]
    congr 2
    omega
  · cases hbytes

theorem toNat_fromLeBytes (bytes : List UInt8) (h : bytes.length ≤ 8) :
    (fromLeBytes bytes).toNat = bytes.foldr (fun byte value => byte.toNat + 256 * value) 0 ∧
      (fromLeBytes bytes).toNat < 256 ^ bytes.length := by
  induction bytes with
  | nil => exact ⟨rfl, by decide⟩
  | cons byte bytes ih =>
    rw [List.length_cons] at h
    obtain ⟨hvalue, hlt⟩ := ih (by omega)
    have hpow : 256 ^ bytes.length ≤ 256 ^ 7 := Nat.pow_le_pow_right (by decide) (by omega)
    have hbyte := byte.toNat_lt
    have hsum : (fromLeBytes (byte :: bytes)).toNat =
        byte.toNat + 256 * (fromLeBytes bytes).toNat := by
      show (byte.toUInt64 + 256 * fromLeBytes bytes).toNat = _
      rw [UInt64.toNat_add, UInt64.toNat_mul, UInt8.toNat_toUInt64]
      show (byte.toNat + 256 * (fromLeBytes bytes).toNat % 2 ^ 64) % 2 ^ 64 = _
      omega
    rw [hsum, hvalue]
    refine ⟨rfl, ?_⟩
    rw [← hvalue, List.length_cons, Nat.pow_succ]
    omega

theorem foldr_take_four (bytes : List UInt8) (h : bytes.length = 8) :
    (bytes.take 4).foldr (fun byte value => byte.toNat + 256 * value) 0 =
      bytes.foldr (fun byte value => byte.toNat + 256 * value) 0 % 2 ^ 32 := by
  match bytes, h with
  | [b₀, b₁, b₂, b₃, b₄, b₅, b₆, b₇], _ =>
    have h₀ := b₀.toNat_lt
    have h₁ := b₁.toNat_lt
    have h₂ := b₂.toNat_lt
    have h₃ := b₃.toNat_lt
    simp only [List.take_succ_cons, List.take_zero, List.foldr_cons, List.foldr_nil]
    omega

/-- The first four bytes of a thunk of eight are its low half. -/
theorem thunkAt_four {table v : UInt64} (h : m.thunkAt 8 table 0 = some v) :
    m.thunkAt 4 table 0 = some (UInt64.ofNat (v.toNat % 2 ^ 32)) := by
  simp only [thunkAt, pointerAt, Nat.zero_mul, Option.bind_eq_bind, Option.bind_eq_some_iff] at h ⊢
  obtain ⟨rva, hrva, address, haddress, bytes, hbytes, hv⟩ := h
  refine ⟨rva, hrva, address, haddress, bytes.take 4, bytesAt_take hbytes (by decide), ?_⟩
  split at hv
  · rename_i hlen
    have hfour : (bytes.take 4).length = 4 := by
      rw [List.length_take, hlen]
      rfl
    obtain rfl := Option.some.inj hv
    rw [if_pos hfour, Option.some.injEq, ← UInt64.toNat_inj,
      (toNat_fromLeBytes _ (by omega)).1, foldr_take_four bytes hlen,
      ← (toNat_fromLeBytes bytes (by omega)).1]
    exact (Nat.mod_eq_of_lt (by omega)).symm
  · cases hv

theorem BindsFrom.inv_nil {width k : Nat} {d : DelayDescriptor} {dll : String}
    (h : m.BindsFrom names width d dll k []) : m.thunkAt width d.intRva k = some 0 := by
  cases h with
  | done hzero => exact hzero

theorem BindsFrom.inv_cons {width k : Nat} {d : DelayDescriptor} {dll : String} {b : DelayBinding}
    {bound : List DelayBinding} (h : m.BindsFrom names width d dll k (b :: bound)) :
    ∃ value, m.thunkAt width d.intRva k = some value ∧ value ≠ 0 ∧
      b.address.toNat = m.imageBase.toNat + d.iatRva.toNat + k * width ∧
      b.thunk = readThunk width value ∧ b.dll = dll ∧
      (symbolOf m names d dll b.thunk).outcome = .ok b.symbol ∧
      m.BindsFrom names width d dll (k + 1) bound := by
  cases h with
  | next hread hne hsymbol haddress hrest =>
    exact ⟨_, hread, hne, haddress, rfl, rfl, hsymbol, hrest⟩

theorem testBit_31 (n : Nat) : (n % 2 ^ 32).testBit 31 = n.testBit 31 := by
  rw [Nat.testBit_mod_two_pow]
  rfl

theorem toNat_low (v : UInt64) : (UInt64.ofNat (v.toNat % 2 ^ 32)).toNat = v.toNat % 2 ^ 32 :=
  Nat.mod_eq_of_lt (by omega)

/-- A thunk of eight bytes says what its low half says in these two cases only. -/
theorem readThunk_eq_iff (v : UInt64) :
    readThunk 8 v = readThunk 4 (UInt64.ofNat (v.toNat % 2 ^ 32)) ↔
      v.toNat < 2 ^ 31 ∨ (v.toNat.testBit 63 = true ∧ v.toNat.testBit 31 = true) := by
  have hlt := v.toNat_lt
  have hbit : ∀ i, v.toNat.testBit i = decide (v.toNat / 2 ^ i % 2 = 1) := fun i =>
    Nat.testBit_eq_decide_div_mod_eq
  have h8 : readThunk 8 v =
      if v.toNat.testBit 63 = true then .byOrdinal (v.toNat % 2 ^ 16) else .byName v := rfl
  have h4 : readThunk 4 (UInt64.ofNat (v.toNat % 2 ^ 32)) =
      if v.toNat.testBit 31 = true then .byOrdinal (v.toNat % 2 ^ 16)
      else .byName (UInt64.ofNat (v.toNat % 2 ^ 32)) := by
    have hmod : v.toNat % 2 ^ 32 % 2 ^ 16 = v.toNat % 2 ^ 16 := by omega
    have hread : ∀ low : UInt64, readThunk 4 low =
        if low.toNat.testBit 31 = true then .byOrdinal (low.toNat % 2 ^ 16) else .byName low :=
      fun _ => rfl
    rw [hread, toNat_low, testBit_31, hmod]
  rw [h8, h4]
  by_cases h63 : v.toNat.testBit 63 = true
  · have hlarge : ¬ v.toNat < 2 ^ 31 := by
      rw [hbit, decide_eq_true_eq] at h63
      omega
    by_cases h31 : v.toNat.testBit 31 = true
    · rw [if_pos h63, if_pos h31]
      exact ⟨fun _ => Or.inr ⟨h63, h31⟩, fun _ => rfl⟩
    · rw [if_pos h63, if_neg h31]
      exact ⟨(fun h => nomatch h), fun h => (h.elim hlarge fun hbits => h31 hbits.2).elim⟩
  · by_cases h31 : v.toNat.testBit 31 = true
    · have hlarge : ¬ v.toNat < 2 ^ 31 := by
        rw [hbit, decide_eq_true_eq] at h31
        omega
      rw [if_neg h63, if_pos h31]
      exact ⟨(fun h => nomatch h), fun h => (h.elim hlarge fun hbits => h63 hbits.1).elim⟩
    · have hsame : v = UInt64.ofNat (v.toNat % 2 ^ 32) ↔ v.toNat < 2 ^ 31 := by
        rw [← UInt64.toNat_inj, toNat_low]
        rw [hbit, decide_eq_true_eq] at h31
        omega
      rw [if_neg h63, if_neg h31, Thunk.byName.injEq, hsame]
      exact ⟨Or.inl, fun h => h.resolve_right fun hbits => h63 hbits.1⟩

theorem narrowTable_of_bindsFrom {d : DelayDescriptor} {dll dll' : String}
    {bound : List DelayBinding} (h4 : m.BindsFrom names 4 d dll 0 bound)
    (h8 : m.BindsFrom names 8 d dll' 0 bound) : m.NarrowTable d := by
  cases bound with
  | nil => exact Or.inl h8.inv_nil
  | cons b bound =>
    obtain ⟨v, hread, hne, -, hthunk, -, -, hrest⟩ := h8.inv_cons
    obtain ⟨v', hread', hne', -, hthunk', -, -, hrest'⟩ := h4.inv_cons
    rw [thunkAt_four hread] at hread'
    obtain rfl := Option.some.inj hread'
    have hsame := hthunk.symm.trans hthunk'
    cases bound with
    | nil =>
      refine Or.inr ⟨v, hread, hrest.inv_nil, hrest'.inv_nil, ?_⟩
      rcases (readThunk_eq_iff v).mp hsame with hlt | hbits
      · exact Or.inl ⟨hne, hlt⟩
      · exact Or.inr hbits
    | cons b₂ bound =>
      -- the second address cannot be both four and eight behind the first
      obtain ⟨_, -, -, ha, -⟩ := hrest.inv_cons
      obtain ⟨_, -, -, ha', -⟩ := hrest'.inv_cons
      omega

theorem bindsFrom_of_narrowTable {d : DelayDescriptor} {dll : String} {bound : List DelayBinding}
    (hnarrow : m.NarrowTable d) (h4 : m.BindsFrom names 4 d dll 0 bound) :
    m.BindsFrom names 8 d dll 0 bound := by
  rcases hnarrow with hzero | ⟨v, hread, hstop, hstop4, hvalue⟩
  · cases bound with
    | nil => exact .done hzero
    | cons b bound =>
      obtain ⟨v', hread', hne', -⟩ := h4.inv_cons
      rw [thunkAt_four hzero] at hread'
      exact absurd (Option.some.inj hread').symm hne'
  · have hlow : UInt64.ofNat (v.toNat % 2 ^ 32) ≠ 0 := by
      rw [Ne, ← UInt64.toNat_inj, toNat_low]
      have hzero : v = 0 ↔ v.toNat = 0 := by
        rw [← UInt64.toNat_inj]
        rfl
      show ¬ v.toNat % 2 ^ 32 = 0
      rcases hvalue with ⟨hne, hlt⟩ | ⟨-, hbit⟩
      · rw [Ne, hzero] at hne
        omega
      · rw [Nat.testBit_eq_decide_div_mod_eq, decide_eq_true_eq] at hbit
        omega
    have hne : v ≠ 0 := by
      intro hv
      subst hv
      exact hlow rfl
    cases bound with
    | nil =>
      have hnil := h4.inv_nil
      rw [thunkAt_four hread] at hnil
      exact absurd (Option.some.inj hnil) hlow
    | cons b bound =>
      obtain ⟨address, thunk, dll', symbol⟩ := b
      obtain ⟨v', hread', -, haddress, rfl, rfl, hsymbol, hrest⟩ := h4.inv_cons
      rw [thunkAt_four hread] at hread'
      obtain rfl := Option.some.inj hread'
      have hthunk := (readThunk_eq_iff v).mpr (by
        rcases hvalue with ⟨-, hlt⟩ | hbits
        · exact Or.inl hlt
        · exact Or.inr hbits)
      rw [← hthunk] at hsymbol ⊢
      cases bound with
      | nil => exact .next hread hne hsymbol (by omega) (.done hstop)
      | cons b₂ bound =>
        obtain ⟨v₂, hread₂, hne₂, -⟩ := hrest.inv_cons
        rw [hstop4] at hread₂
        exact absurd (Option.some.inj hread₂).symm hne₂

theorem pointerSize_eq : m.pointerSize = m.architecture.pointerWidth ↔
    m.architecture ≠ .aarch64 := by
  unfold pointerSize
  cases m.architecture with
  | x86 => decide
  | x64 => decide
  | aarch64 => decide

/-- Delay imports are decoded with the pointer width on every architecture but AArch64. There the
    thunks are read as if they had four bytes, which goes well on narrow tables only. -/
theorem delaySound_iff (m : Mapped) (names : ImportNames) (header : OptionalHeader)
    (before after : Bindings)
    (h : (m.loadPeDelayImports names header before).outcome = .ok after) :
    m.DelaySound names header before after ↔
      (m.architecture = .aarch64 → ∀ d ∈ m.delayDescriptors header, m.NarrowTable d) := by
  obtain ⟨hbinds, hgains⟩ := loadPeDelayImports_spec h
  by_cases harch : m.architecture = .aarch64
  · have hsize : m.pointerSize = 4 := by rw [pointerSize, harch, if_neg (by decide)]
    have hwidth : m.architecture.pointerWidth = 8 := by rw [harch]; rfl
    rw [TablesBound, hsize] at hbinds
    constructor
    · intro hsound _ d hd
      obtain ⟨dll, -, h4⟩ := hbinds d hd
      obtain ⟨dll', -, h8⟩ := hsound.1 d hd
      rw [hwidth] at h8
      exact narrowTable_of_bindsFrom h4 h8
    · intro hnarrow
      refine ⟨fun d hd => ?_, hgains⟩
      obtain ⟨dll, hdll, h4⟩ := hbinds d hd
      rw [hwidth]
      exact ⟨dll, hdll, bindsFrom_of_narrowTable (hnarrow harch d hd) h4⟩
  · rw [TablesBound, pointerSize_eq.mpr harch] at hbinds
    exact ⟨fun _ he => absurd he harch, fun _ => ⟨hbinds, hgains⟩⟩

/-! ## Two imports -/

/-- A descriptor with RVAs, the zero descriptor, then the name of the library at 0x40, two thunks
    of eight bytes and a zero at 0x50, and their names at 0x70 and 0x78. -/
def twoImportsBytes : List UInt8 :=
  leBytes 4 1 ++ leBytes 4 0x1040 ++ leBytes 4 0 ++ leBytes 4 0x1080 ++ leBytes 4 0x1050 ++
    leBytes 12 0 ++ leBytes 32 0 ++ leBytes 16 0x61 ++ leBytes 8 0x1070 ++ leBytes 8 0x1078 ++
    leBytes 8 0 ++ leBytes 8 0 ++ leBytes 8 0x620000 ++ leBytes 8 0x630000 ++ leBytes 16 0

def twoImports (architecture : Architecture) : Mapped where
  architecture := architecture
  imageBase := 0x400000
  regions := Regions.empty.push
    { address := 0x401000
      virtualSize := UInt64.ofNat twoImportsBytes.length
      permissions := ⟨true, true, false⟩ }
    ⟨".didat", 0, UInt64.ofNat twoImportsBytes.length⟩ twoImportsBytes twoImportsBytes.length

def twoImportsHeader : OptionalHeader where
  sectionAlignment := 0x1000
  fileAlignment := 0x200
  baseOfCode := 0
  sizeOfCode := 0
  dataDirectories := List.replicate 13 none ++ [some ⟨0x1000, 0x40⟩]

def plainNames : ImportNames where
  resolvePeOrdinal _ _ := none
  generateSymbols _ symbol := [symbol]
  importLocationName dll symbol := s!"{dll}.{symbol}"

def twoImportsDescriptor : DelayDescriptor := ⟨true, 0x1040, 0x1080, 0x1050⟩

def loadTwoImports (architecture : Architecture) : Loading Bindings :=
  (twoImports architecture).loadPeDelayImports plainNames twoImportsHeader ⟨∅, ∅⟩

/-- What the maps of a run that returns hold at the addresses of the two thunks. -/
def twoBound (width : UInt64) (run : Loading Bindings) :
    Option (List (Option (List String) × Option String)) :=
  run.outcome.toOption.map fun after => [0x401080, 0x401080 + width].map fun address =>
    (after.external.get? address, after.locations.get? address)

/-- On x64 both imports are bound, eight bytes apart. -/
theorem delaySound_iff_twoImports : ∃ after, (loadTwoImports .x64).outcome = .ok after ∧
    (twoImports .x64).DelaySound plainNames twoImportsHeader ⟨∅, ∅⟩ after ∧
    twoBound 8 (loadTwoImports .x64) =
      some [(some ["b"], some "a.b"), (some ["c"], some "a.c")] := by
  have hbound : twoBound 8 (loadTwoImports .x64) =
      some [(some ["b"], some "a.b"), (some ["c"], some "a.c")] := by decide +kernel
  cases hout : (loadTwoImports .x64).outcome with
  | error e =>
    rw [twoBound, hout] at hbound
    cases hbound
  | ok after =>
    exact ⟨after, rfl, (delaySound_iff (twoImports .x64) plainNames twoImportsHeader ⟨∅, ∅⟩ after
      hout).mpr nofun, hbound⟩

/-- On AArch64 the upper half of the first thunk ends the table: the second import is lost. -/
theorem delaySound_fails : ∃ after, (loadTwoImports .aarch64).outcome = .ok after ∧
    ¬ (twoImports .aarch64).DelaySound plainNames twoImportsHeader ⟨∅, ∅⟩ after := by
  have hfound : twoBound 8 (loadTwoImports .aarch64) =
      some [(some ["b"], some "a.b"), (none, none)] := by decide +kernel
  cases hout : (loadTwoImports .aarch64).outcome with
  | error e =>
    rw [twoBound, hout] at hfound
    cases hfound
  | ok after =>
    refine ⟨after, rfl, fun hsound => ?_⟩
    have hmem : twoImportsDescriptor ∈ (twoImports .aarch64).delayDescriptors twoImportsHeader := by
      decide +kernel
    have hbound : (twoImports .aarch64).boundBy plainNames twoImportsDescriptor =
        [⟨0x401080, .byName 0x1070, "a", "b"⟩] := by decide +kernel
    obtain ⟨dll, -, hbinds⟩ := hsound.1 twoImportsDescriptor hmem
    rw [hbound] at hbinds
    obtain ⟨_, -, -, -, -, -, -, hrest⟩ := hbinds.inv_cons
    have hsecond : (twoImports .aarch64).thunkAt 8 0x1050 1 = some 0x1078 := by decide +kernel
    exact absurd (hsecond.symm.trans hrest.inv_nil) (by decide)

end Mapped

end CapaX.Loader
