import CapaX.Dotnet.Resolution

/-
  What the names of nested types are made of. Over metadata without a cycle, whose links lead to
  rows, every name is made of the chain of its row (`ChainFrom`): the namespace is that of the
  outermost row. The class list of a `TypeDef` is the names of the chain, outermost first. The walk
  along the resolution scopes keeps a name back that it never pushes, that of the row next to the
  outermost one, and `managed_imports` has it begin at the row itself, whose name then stands twice
  (`Telephony/Sent/Sent`).
-/

namespace CapaX.Dotnet

open Collections Graphs CapaX Relation

/-! ## Rows and their names -/

/-- A column of a row. -/
def column {α : Type} (table : Option (List α)) (read : α → String) (rid : Nat) : String :=
  ((getTableRowByRid table rid).map read).getD ""

/-- The namespace and the names that a walk along a chain ends with. `shape` makes the class list
    of the names, that of the row itself first. -/
def resolved {α : Type} (table : Option (List α)) (name space : α → String)
    (shape : List String → List String) (chain : List Nat) : String × List String :=
  (column table space (chain.getLast?.getD 0), shape (chain.map (column table name)))

/-- The name is that of the chain of the row. -/
def Carries {α : Type} (table : Option (List α)) (name space : α → String)
    (link : Nat → Option Nat) (shape : List String → List String) (rid : Nat) (t : DnType) : Prop :=
  ∃ chain, ChainFrom link rid chain ∧
    (t.namespace_, t.class_) = resolved table name space shape chain

/-- The rows of the types that have the members. -/
def memberRows (net : ClrData) (list : TypeDef → List CodedIndex) (names : List String) :
    List Nat :=
  (net.typeDef.getD []).zipIdx.flatMap fun row =>
    (list row.1).zipIdx.flatMap fun entry =>
      if (getTableRowByRid (some names) entry.1.rowIndex).isSome then [row.2 + 1] else []

/-- The rows of the references that imports name. -/
def importedRows (net : ClrData) : List Nat :=
  (net.memberRef.getD []).zipIdx.flatMap fun row =>
    if row.1.class_.table = .typeRef ∧ (getTableRowByRid net.typeRef row.1.class_.rowIndex).isSome
    then [row.1.class_.rowIndex] else []

/-- The functions return, and every name carries the chain of its row: the names of a `TypeDef`
    outermost first, those of a `TypeRef` in the given shapes. -/
structure Rendered (net : ClrData) (reference imported : List String → List String) : Prop where
  types : ∃ defs refs, Returns (fun fuel => types fuel net) (defs ++ refs) ∧
    List.Forall₂ (Carries net.typeDef (·.typeName) (·.typeNamespace) (enclosingLink net)
      List.reverse) (rids net.typeDef) defs ∧
    List.Forall₂ (Carries net.typeRef (·.typeName) (·.typeNamespace) (scopeLink net) reference)
      (rids net.typeRef) refs
  managedMethods : ∃ out, Returns (fun fuel => managedMethods fuel net) out ∧
    List.Forall₂ (Carries net.typeDef (·.typeName) (·.typeNamespace) (enclosingLink net)
      List.reverse) (memberRows net (·.methodList) (net.methodDef.getD [])) out
  fields : ∃ out, Returns (fun fuel => fields fuel net) out ∧
    List.Forall₂ (Carries net.typeDef (·.typeName) (·.typeNamespace) (enclosingLink net)
      List.reverse) (memberRows net (·.fieldList) (net.field.getD [])) out
  managedImports : ∃ out, Returns (fun fuel => managedImports fuel net) out ∧
    List.Forall₂ (Carries net.typeRef (·.typeName) (·.typeNamespace) (scopeLink net) imported)
      (importedRows net) out

/-- Neither relation has a cycle, and both lead to rows. -/
structure Consistent (net : ClrData) : Prop extends Wellfounded net where
  enclosingRow : ∀ rid next, enclosingLink net rid = some next →
    (getTableRowByRid net.typeDef next).isSome
  scopeRow : ∀ rid next, scopeLink net rid = some next →
    (getTableRowByRid net.typeRef next).isSome

/-- The list without the element next to its last one. -/
def skipNextToLast : List String → List String
  | a :: b :: c :: rest => a :: skipNextToLast (b :: c :: rest)
  | [_, b] => [b]
  | l => l

/-- The class list of a reference from `types`. -/
def referenceNames (names : List String) : List String := (skipNextToLast names).reverse

/-- The class list of a reference from `managed_imports`. -/
def importedNames (names : List String) : List String :=
  (skipNextToLast (names.head?.toList ++ names)).reverse

/-! ## The two walks -/

section

variable {α : Type} {table : Option (List α)} {name space : α → String}
  {link : Nat → Option Nat} {shape : List String → List String}

theorem column_of_row {rid : Nat} {row : α} (h : getTableRowByRid table rid = some row)
    (read : α → String) : column table read rid = read row := by
  rw [column, h]
  rfl

end

variable {net : ClrData}

theorem follow_ne_nil {next : Nat → Option Nat} {fuel a : Nat} {l : List Nat}
    (h : follow next fuel a = some l) : ∃ rest, l = a :: rest := by
  obtain hnext | ⟨hnext, hl⟩ := chainFrom_of_follow h
  · exact ⟨[], rfl⟩
  · exact ⟨_, rfl⟩

/-- The loop pushes the name of every row on the way, and stops at the outermost one. -/
theorem typedefLoop_follow (h : Consistent net) (typedef : TypeDef) {fuel cursor : Nat}
    (names : List String) {l : List Nat} (hl : follow (enclosingLink net) fuel cursor = some l)
    (hrow : (getTableRowByRid net.typeDef cursor).isSome) :
    typedefLoop net (nestedClassTable net) typedef fuel cursor names =
      some (column net.typeDef (·.typeNamespace) (l.getLast?.getD 0),
        (names ++ l.map (column net.typeDef (·.typeName))).reverse) := by
  induction fuel generalizing cursor names l with
  | zero => cases hl
  | succ fuel ih =>
    obtain ⟨row, hrow'⟩ := Option.isSome_iff_exists.mp hrow
    have hlink : enclosingLink net cursor = (nestedClassTable net).get? cursor := by
      rw [enclosingLink, if_pos hrow]
    rw [typedefLoop]
    cases hnext : (nestedClassTable net).get? cursor with
    | none =>
      rw [follow, hlink, hnext] at hl
      obtain rfl := Option.some.inj hl
      dsimp only
      rw [outermostTypedef, hrow']
      simp [column_of_row hrow']
    | some next =>
      rw [hnext] at hlink
      rw [follow_succ_some hlink] at hl
      obtain ⟨l', hl', rfl⟩ := Option.map_eq_some_iff.mp hl
      obtain ⟨rest, hrest⟩ := follow_ne_nil hl'
      rw [hrow']
      dsimp only
      rw [ih (names ++ [row.typeName]) hl' (h.enclosingRow cursor next hlink), hrest]
      simp [column_of_row hrow']

/-- The names of a `TypeDef` row are those of its chain. -/
theorem resolveNestedTypedefName_follow (h : Consistent net) {fuel rid : Nat} {typedef : TypeDef}
    (hf : (net.typeDef.getD []).length < fuel)
    (hrow : getTableRowByRid net.typeDef rid = some typedef) :
    ∃ chain, ChainFrom (enclosingLink net) rid chain ∧
      resolveNestedTypedefName fuel net (nestedClassTable net) rid typedef =
        some (resolved net.typeDef (·.typeName) (·.typeNamespace) List.reverse chain) := by
  have hlink : enclosingLink net rid = (nestedClassTable net).get? rid := by
    rw [enclosingLink, hrow]
    exact if_pos rfl
  unfold resolveNestedTypedefName
  cases hfirst : (nestedClassTable net).get? rid with
  | none =>
    refine ⟨[rid], .last (hlink.trans hfirst), ?_⟩
    simp [resolved, column_of_row hrow]
  | some first =>
    rw [hfirst] at hlink
    obtain ⟨l, hl⟩ := h.follow_enclosing hf first
    obtain ⟨rest, hrest⟩ := follow_ne_nil hl
    refine ⟨rid :: l, .link hlink (chainFrom_of_follow hl), ?_⟩
    dsimp only
    rw [typedefLoop_follow h typedef _ hl (h.enclosingRow rid first hlink), hrest]
    simp [resolved, column_of_row hrow]

/-- The loop keeps the name of the row it came from back for one turn, and drops the last one. -/
theorem typerefLoop_follow (h : Consistent net) (typeref : TypeRef) {row : TypeRef}
    {fuel rid : Nat} (name : String) (names : List String) {l : List Nat}
    (hl : follow (scopeLink net) fuel rid = some l)
    (hrow : getTableRowByRid net.typeRef rid = some row) :
    typerefLoop net typeref fuel row name names =
      some (column net.typeRef (·.typeNamespace) (l.getLast?.getD 0),
        (names ++ skipNextToLast (name :: l.map (column net.typeRef (·.typeName)))).reverse) := by
  induction fuel generalizing row rid name names l with
  | zero => cases hl
  | succ fuel ih =>
    rw [typerefLoop]
    by_cases hscope : row.resolutionScope.table = .typeRef
    · have hlink : scopeLink net rid = some row.resolutionScope.rowIndex := by
        rw [scopeLink, hrow]
        exact if_pos hscope
      rw [follow_succ_some hlink] at hl
      obtain ⟨l', hl', rfl⟩ := Option.map_eq_some_iff.mp hl
      obtain ⟨next, hnext⟩ := Option.isSome_iff_exists.mp (h.scopeRow rid _ hlink)
      obtain ⟨rest, hrest⟩ := follow_ne_nil hl'
      rw [if_pos hscope, hnext]
      dsimp only
      rw [ih row.typeName (names ++ [name]) hl' hnext, hrest]
      simp [skipNextToLast, column_of_row hrow]
    · have hlink : scopeLink net rid = none := by
        rw [scopeLink, hrow]
        exact if_neg hscope
      rw [follow, hlink] at hl
      obtain rfl := Option.some.inj hl
      rw [if_neg hscope]
      simp [skipNextToLast, column_of_row hrow]

/-- The names of a `TypeRef` row that the walk from its scope leads to. -/
theorem resolveNestedTyperefName_scope (h : Consistent net) {fuel rid : Nat} {typeref : TypeRef}
    (hf : (net.typeRef.getD []).length < fuel)
    (hrow : getTableRowByRid net.typeRef rid = some typeref) :
    ∃ chain, ChainFrom (scopeLink net) rid chain ∧
      resolveNestedTyperefName fuel net typeref.resolutionScope.rowIndex typeref =
        some (resolved net.typeRef (·.typeName) (·.typeNamespace) referenceNames chain) := by
  unfold resolveNestedTyperefName
  by_cases hscope : typeref.resolutionScope.table = .typeRef
  · have hlink : scopeLink net rid = some typeref.resolutionScope.rowIndex := by
      rw [scopeLink, hrow]
      exact if_pos hscope
    obtain ⟨row, hnext⟩ := Option.isSome_iff_exists.mp (h.scopeRow rid _ hlink)
    obtain ⟨l, hl⟩ := h.follow_scope hf typeref.resolutionScope.rowIndex
    obtain ⟨rest, hrest⟩ := follow_ne_nil hl
    refine ⟨rid :: l, .link hlink (chainFrom_of_follow hl), ?_⟩
    rw [if_pos hscope, hnext]
    dsimp only
    rw [typerefLoop_follow h typeref _ [] hl hnext, hrest]
    simp [resolved, referenceNames, column_of_row hrow]
  · have hlink : scopeLink net rid = none := by
      rw [scopeLink, hrow]
      exact if_neg hscope
    refine ⟨[rid], .last hlink, ?_⟩
    rw [if_neg hscope]
    simp [resolved, referenceNames, skipNextToLast, column_of_row hrow]

/-- The names of a `TypeRef` row that the walk from the row itself leads to. -/
theorem resolveNestedTyperefName_self (h : Consistent net) {fuel rid : Nat} {typeref : TypeRef}
    (hf : (net.typeRef.getD []).length < fuel)
    (hrow : getTableRowByRid net.typeRef rid = some typeref) :
    ∃ chain, ChainFrom (scopeLink net) rid chain ∧
      resolveNestedTyperefName fuel net rid typeref =
        some (resolved net.typeRef (·.typeName) (·.typeNamespace) importedNames chain) := by
  obtain ⟨l, hl⟩ := h.follow_scope hf rid
  obtain ⟨rest, hrest⟩ := follow_ne_nil hl
  refine ⟨l, chainFrom_of_follow hl, ?_⟩
  unfold resolveNestedTyperefName
  by_cases hscope : typeref.resolutionScope.table = .typeRef
  · rw [if_pos hscope, hrow]
    dsimp only
    rw [typerefLoop_follow h typeref _ [] hl hrow, hrest]
    simp [resolved, importedNames, column_of_row hrow]
  · have hlink : scopeLink net rid = none := by
      rw [scopeLink, hrow]
      exact if_neg hscope
    obtain rfl := (chainFrom_of_follow hl).unique (.last hlink)
    rw [if_neg hscope]
    simp [resolved, importedNames, skipNextToLast, column_of_row hrow]

/-! ## The functions -/

/-- A loop whose every row pushes values related to its heads. -/
theorem pushAll_forall₂ {α β : Type} {rows : List α} {push : α → Nat → Option (List β)}
    {heads : α × Nat → List Nat} {R : Nat → β → Prop}
    (h : ∀ row ∈ rows.zipIdx, ∃ bs, push row.1 row.2 = some bs ∧ List.Forall₂ R (heads row) bs) :
    ∃ out, pushAll rows push = some out ∧ List.Forall₂ R (rows.zipIdx.flatMap heads) out := by
  unfold pushAll
  generalize rows.zipIdx = l at h
  induction l with
  | nil => exact ⟨[], rfl, .nil⟩
  | cons row l ih =>
    obtain ⟨bs, hbs, hheads⟩ := h row List.mem_cons_self
    obtain ⟨out, hout, hrest⟩ := ih fun row' hrow' => h row' (List.mem_cons_of_mem _ hrow')
    obtain ⟨parts, hparts, rfl⟩ := Option.map_eq_some_iff.mp hout
    refine ⟨bs ++ parts.flatten, ?_, ?_⟩
    · rw [List.mapM_cons, hbs, hparts]
      rfl
    · rw [List.flatMap_cons]
      exact List.rel_append hheads hrest

theorem rids_eq {α : Type} (table : Option (List α)) :
    rids table = (table.getD []).zipIdx.flatMap fun row => [row.2 + 1] := by
  rw [rids, List.range_eq_range', ← List.zipIdx_map_snd 0, List.map_map, List.map_eq_flatMap]
  rfl

theorem row_of_mem_zipIdx {α : Type} {table : Option (List α)} {row : α × Nat}
    (h : row ∈ (table.getD []).zipIdx) : getTableRowByRid table (row.2 + 1) = some row.1 := by
  rw [getTableRowByRid_succ]
  exact List.mem_zipIdx_iff_getElem?.mp h

/-- No member of an empty table is there. -/
theorem memberRows_nil (list : TypeDef → List CodedIndex) : memberRows net list [] = [] := by
  unfold memberRows
  refine List.flatMap_eq_nil_iff.mpr fun row _ => List.flatMap_eq_nil_iff.mpr fun entry _ => ?_
  rw [if_neg]
  unfold getTableRowByRid
  split <;> simp

theorem membersOf_forall₂ (h : Consistent net) {fuel : Nat}
    (hf : (net.typeDef.getD []).length < fuel) (list : TypeDef → List CodedIndex)
    (names : List String) {member : CodedIndex → String → List String → String → DnType}
    (hmember : ∀ entry name class_ space, (member entry name class_ space).class_ = class_ ∧
      (member entry name class_ space).namespace_ = space) :
    ∃ out, membersOf fuel net list names member = some out ∧
      List.Forall₂ (Carries net.typeDef (·.typeName) (·.typeNamespace) (enclosingLink net)
        List.reverse) (memberRows net list names) out := by
  unfold membersOf memberRows
  refine pushAll_forall₂ fun row hrow => pushAll_forall₂ fun entry _ => ?_
  cases hname : getTableRowByRid (some names) entry.1.rowIndex with
  | none => exact ⟨[], rfl, .nil⟩
  | some name =>
    obtain ⟨chain, hchain, hresolve⟩ :=
      resolveNestedTypedefName_follow h hf (row_of_mem_zipIdx hrow)
    dsimp only
    rw [hresolve, Option.isSome_some, if_pos rfl]
    refine ⟨_, rfl, .cons ⟨chain, hchain, ?_⟩ .nil⟩
    rw [(hmember _ _ _ _).1, (hmember _ _ _ _).2]

/-- Two loops, one behind the other. -/
theorem append_some {β : Type} {x y : Option (List β)} {P Q : List β → Prop}
    (hx : ∃ a, x = some a ∧ P a) (hy : ∃ b, y = some b ∧ Q b) :
    ∃ a b, (x.bind fun a => y.bind fun b => some (a ++ b)) = some (a ++ b) ∧ P a ∧ Q b := by
  obtain ⟨a, rfl, ha⟩ := hx
  obtain ⟨b, rfl, hb⟩ := hy
  exact ⟨a, b, rfl, ha, hb⟩

theorem types_forall₂ (h : Consistent net) {fuel : Nat}
    (hd : (net.typeDef.getD []).length < fuel) (hr : (net.typeRef.getD []).length < fuel) :
    ∃ defs refs, types fuel net = some (defs ++ refs) ∧
      List.Forall₂ (Carries net.typeDef (·.typeName) (·.typeNamespace) (enclosingLink net)
        List.reverse) (rids net.typeDef) defs ∧
      List.Forall₂ (Carries net.typeRef (·.typeName) (·.typeNamespace) (scopeLink net)
        referenceNames) (rids net.typeRef) refs := by
  rw [rids_eq, rids_eq]
  refine append_some (pushAll_forall₂ fun row hrow => ?_) (pushAll_forall₂ fun row hrow => ?_)
  · obtain ⟨chain, hchain, hresolve⟩ :=
      resolveNestedTypedefName_follow h hd (row_of_mem_zipIdx hrow)
    dsimp only
    rw [hresolve]
    exact ⟨_, rfl, .cons ⟨chain, hchain, rfl⟩ .nil⟩
  · obtain ⟨chain, hchain, hresolve⟩ :=
      resolveNestedTyperefName_scope h hr (row_of_mem_zipIdx hrow)
    dsimp only
    rw [hresolve]
    exact ⟨_, rfl, .cons ⟨chain, hchain, rfl⟩ .nil⟩

theorem managedImports_forall₂ (h : Consistent net) {fuel : Nat}
    (hf : (net.typeRef.getD []).length < fuel) :
    ∃ out, managedImports fuel net = some out ∧
      List.Forall₂ (Carries net.typeRef (·.typeName) (·.typeNamespace) (scopeLink net)
        importedNames) (importedRows net) out := by
  unfold managedImports importedRows
  refine pushAll_forall₂ fun row _ => ?_
  by_cases hclass : row.1.class_.table = .typeRef
  · cases hrow : getTableRowByRid net.typeRef row.1.class_.rowIndex with
    | none =>
      rw [if_pos hclass, if_neg (by simp)]
      exact ⟨[], rfl, .nil⟩
    | some typeref =>
      obtain ⟨chain, hchain, hresolve⟩ := resolveNestedTyperefName_self h hf hrow
      rw [if_pos hclass, if_pos ⟨hclass, rfl⟩]
      dsimp only
      rw [hresolve]
      exact ⟨_, rfl, .cons ⟨chain, hchain, rfl⟩ .nil⟩
  · rw [if_neg hclass, if_neg fun hboth => hclass hboth.1]
    exact ⟨[], rfl, .nil⟩

theorem managedMethods_forall₂ (h : Consistent net) {fuel : Nat}
    (hf : (net.typeDef.getD []).length < fuel) :
    ∃ out, managedMethods fuel net = some out ∧
      List.Forall₂ (Carries net.typeDef (·.typeName) (·.typeNamespace) (enclosingLink net)
        List.reverse) (memberRows net (·.methodList) (net.methodDef.getD [])) out := by
  unfold managedMethods
  cases net.methodDef with
  | none => exact ⟨[], rfl, by rw [Option.getD_none, memberRows_nil]; exact .nil⟩
  | some methods => exact membersOf_forall₂ h hf _ methods fun _ _ _ _ => ⟨rfl, rfl⟩

theorem fields_forall₂ (h : Consistent net) {fuel : Nat}
    (hf : (net.typeDef.getD []).length < fuel) :
    ∃ out, fields fuel net = some out ∧
      List.Forall₂ (Carries net.typeDef (·.typeName) (·.typeNamespace) (enclosingLink net)
        List.reverse) (memberRows net (·.fieldList) (net.field.getD [])) out := by
  unfold fields
  cases net.field with
  | none => exact ⟨[], rfl, by rw [Option.getD_none, memberRows_nil]; exact .nil⟩
  | some names => exact membersOf_forall₂ h hf _ names fun _ _ _ _ => ⟨rfl, rfl⟩

/-- What holds of a function at any fuel above a bound holds of its result. -/
theorem returns_of_forall {β : Type} {f : Nat → Option β} {P : β → Prop} {bound : Nat}
    (hreturns : ∃ out, Returns f out) (h : ∀ fuel, bound < fuel → ∃ out, f fuel = some out ∧ P out) :
    ∃ out, Returns f out ∧ P out := by
  obtain ⟨out, least, hout⟩ := hreturns
  obtain ⟨out', hout', hP⟩ := h (least + bound + 1) (by omega)
  obtain rfl : out = out' := Option.some.inj ((hout _ (by omega)).symm.trans hout')
  exact ⟨out, ⟨least, hout⟩, hP⟩

/-- Every name carries its chain. -/
theorem Consistent.rendered (h : Consistent net) :
    Rendered net referenceNames importedNames := by
  have hresolves := h.toWellfounded.resolves
  refine ⟨?_, ?_, ?_, ?_⟩
  · have hall : ∃ out, Returns (fun fuel => types fuel net) out ∧
        ∃ defs refs, out = defs ++ refs ∧
          List.Forall₂ (Carries net.typeDef (·.typeName) (·.typeNamespace) (enclosingLink net)
            List.reverse) (rids net.typeDef) defs ∧
          List.Forall₂ (Carries net.typeRef (·.typeName) (·.typeNamespace) (scopeLink net)
            referenceNames) (rids net.typeRef) refs := by
      refine returns_of_forall hresolves.types fun fuel
        (hf : (net.typeDef.getD []).length + (net.typeRef.getD []).length < fuel) => ?_
      have hd : (net.typeDef.getD []).length < fuel := by omega
      have hr : (net.typeRef.getD []).length < fuel := by omega
      obtain ⟨defs, refs, hout, hrest⟩ := types_forall₂ h hd hr
      exact ⟨defs ++ refs, hout, defs, refs, rfl, hrest⟩
    obtain ⟨out, hreturns, defs, refs, rfl, hrest⟩ := hall
    exact ⟨defs, refs, hreturns, hrest⟩
  · exact returns_of_forall hresolves.managedMethods fun _ hf => managedMethods_forall₂ h hf
  · exact returns_of_forall hresolves.fields fun _ hf => fields_forall₂ h hf
  · exact returns_of_forall hresolves.managedImports fun _ hf => managedImports_forall₂ h hf

/-- Up to one enclosing type the names of an import are those of the chain. -/
theorem importedNames_of_length_le {names : List String} (h : names.length ≤ 2) :
    importedNames names = names.reverse := by
  obtain _ | ⟨a, _ | ⟨b, _ | ⟨c, rest⟩⟩⟩ := names
  · rfl
  · rfl
  · rfl
  · simp at h

/-- From `types`, they are those of the chain for a reference that is not nested, and for no
    other. -/
theorem referenceNames_eq_reverse_iff (names : List String) :
    referenceNames names = names.reverse ↔ names.length ≤ 1 := by
  have hlength : ∀ names : List String, 2 ≤ names.length →
      (skipNextToLast names).length + 1 = names.length := by
    intro names
    induction names with
    | nil => exact fun h => absurd h (by decide)
    | cons a rest ih =>
      intro h
      obtain _ | ⟨b, _ | ⟨c, rest⟩⟩ := rest
      · exact absurd h (Nat.not_succ_le_self 1)
      · rfl
      · rw [skipNextToLast, List.length_cons, ih (by simp)]
        rfl
  constructor
  · intro heq
    by_contra hlong
    have hshort := hlength names (by omega)
    rw [referenceNames, List.reverse_inj] at heq
    rw [heq] at hshort
    omega
  · intro h
    obtain _ | ⟨a, _ | ⟨b, rest⟩⟩ := names
    · rfl
    · rfl
    · simp at h

/-- The names of nested types: a `TypeDef` row gets the names of its whole chain, a `TypeRef` row
    the same less the name next to the outermost one, which `managed_imports` makes up for by the
    name of the row itself. -/
theorem nested_names_rendered (net : ClrData) (h : Consistent net) :
    Rendered net referenceNames importedNames ∧
      (∀ names, referenceNames names = names.reverse ↔ names.length ≤ 1) ∧
      ∀ names, names.length ≤ 2 → importedNames names = names.reverse :=
  ⟨h.rendered, referenceNames_eq_reverse_iff, fun _ => importedNames_of_length_le⟩

/-! ## A reference with two enclosing types -/

/-- `Telephony`, `Sms` in it, and `Sent` in that, with a member of `Sent` that is imported. -/
def telephony : ClrData where
  typeDef := none
  typeRef := some [⟨⟨.assemblyRef, 1⟩, "Telephony", "Android.Provider"⟩, ⟨⟨.typeRef, 1⟩, "Sms", ""⟩,
    ⟨⟨.typeRef, 2⟩, "Sent", ""⟩]
  nestedClass := none
  memberRef := some [⟨⟨.typeRef, 3⟩, "get_ContentUri"⟩]
  methodDef := none
  field := none
  methodSemantics := none

theorem telephony_link {rid next : Nat} (h : scopeLink telephony rid = some next) :
    (rid = 2 ∧ next = 1) ∨ (rid = 3 ∧ next = 2) := by
  obtain _ | _ | _ | _ | rid := rid
  · cases h
  · cases h
  · exact Or.inl ⟨rfl, (Option.some.inj h).symm⟩
  · exact Or.inr ⟨rfl, (Option.some.inj h).symm⟩
  · cases h

theorem telephony_enclosing (rid : Nat) : enclosingLink telephony rid = none := by
  have hrow : getTableRowByRid telephony.typeDef rid = none := by
    unfold getTableRowByRid
    split <;> rfl
  rw [enclosingLink, hrow]
  rfl

theorem telephony_consistent : Consistent telephony where
  enclosing rid hcycle := by
    obtain ⟨next, hlink, -⟩ := TransGen.head'_iff.mp hcycle
    cases (telephony_enclosing rid).symm.trans hlink
  scope rid hcycle := by
    obtain ⟨next, hlink, -⟩ := TransGen.head'_iff.mp hcycle
    have hend : ∃ l, follow (scopeLink telephony) 4 rid = some l := by
      obtain ⟨rfl, -⟩ | ⟨rfl, -⟩ := telephony_link hlink
      · exact ⟨[2, 1], rfl⟩
      · exact ⟨[3, 2, 1], rfl⟩
    obtain ⟨l, hl⟩ := hend
    exact not_cycle hl hcycle
  enclosingRow rid next h := by cases (telephony_enclosing rid).symm.trans h
  scopeRow rid next h := by
    obtain ⟨-, rfl⟩ | ⟨-, rfl⟩ := telephony_link h
    · rfl
    · rfl

theorem nested_names_rendered_telephony :
    Rendered telephony referenceNames importedNames ∧
      (∀ names, referenceNames names = names.reverse ↔ names.length ≤ 1) ∧
      ∀ names, names.length ≤ 2 → importedNames names = names.reverse :=
  nested_names_rendered telephony telephony_consistent

/-- The import's class list is `Telephony`, `Sent`, `Sent`, and not the chain. -/
theorem telephony_not_chains :
    Consistent telephony ∧ ¬ Rendered telephony List.reverse List.reverse := by
  refine ⟨telephony_consistent, fun hclaim => ?_⟩
  obtain ⟨out, ⟨least, hout⟩, hchains⟩ := hclaim.managedImports
  obtain ⟨out', ⟨least', hout'⟩, hcode⟩ := telephony_consistent.rendered.managedImports
  obtain rfl : out = out' := Option.some.inj
    ((hout (least + least') (by omega)).symm.trans (hout' (least + least') (by omega)))
  have hrows : importedRows telephony = [3] := rfl
  rw [hrows] at hchains hcode
  obtain ⟨t, _, ⟨chain, hchain, hnames⟩, -, rfl⟩ := List.forall₂_cons_left_iff.mp hchains
  obtain ⟨t', _, ⟨chain', hchain', hnames'⟩, -, heq⟩ := List.forall₂_cons_left_iff.mp hcode
  obtain rfl := (List.cons.inj heq).1
  have hwhole : ChainFrom (scopeLink telephony) 3 [3, 2, 1] :=
    .link rfl (.link rfl (.last rfl))
  obtain rfl := hchain.unique hwhole
  obtain rfl := hchain'.unique hwhole
  have hsame : importedNames ["Sent", "Sms", "Telephony"] = ["Telephony", "Sms", "Sent"] :=
    (Prod.mk.inj (hnames'.symm.trans hnames)).2
  exact absurd hsame (by decide)

end CapaX.Dotnet
