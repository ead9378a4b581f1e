import CapaX.Dotnet.Names

/-
  When the names resolve. Each loop of `names.rs` goes along a chain of links (`typedefLoop_spec`,
  `typerefLoop_spec`), one name for each row it meets. Without a cycle a chain meets no row twice,
  so no more names than rows come out and every function that uses the loops returns; a row on a
  cycle is a start one of the loops never returns from (`resolves_iff`).
-/

namespace CapaX.Dotnet

open Collections Graphs CapaX Relation

/-! ## Rows -/

section

variable {α : Type} {table : Option (List α)}

theorem mem_rids {rid : Nat} (h : (getTableRowByRid table rid).isSome = true) :
    rid ∈ rids table := by
  unfold getTableRowByRid at h
  split at h
  · cases h
  · next hne =>
    obtain ⟨row, hrow⟩ := Option.isSome_iff_exists.mp h
    obtain ⟨rows, rfl, hget⟩ := Option.bind_eq_some_iff.mp hrow
    obtain ⟨hlt, _⟩ := List.getElem?_eq_some_iff.mp hget
    refine List.mem_map.mpr ⟨rid - 1, List.mem_range.mpr hlt, ?_⟩
    omega

theorem getTableRowByRid_succ (i : Nat) :
    getTableRowByRid table (i + 1) = (table.getD [])[i]? := by
  rw [getTableRowByRid, if_neg (Nat.succ_ne_zero i)]
  cases table <;> rfl

theorem exists_row {rid : Nat} {row : α} (h : getTableRowByRid table rid = some row) :
    ∃ i, rid = i + 1 ∧ (table.getD [])[i]? = some row := by
  cases rid with
  | zero => cases h
  | succ i => exact ⟨i, rfl, by rw [← getTableRowByRid_succ, h]⟩

/-- Distinct row numbers are at most as many as the rows. -/
theorem countP_rows_le (table : Option (List α)) {l : List Nat} (hl : l.Nodup) :
    l.countP (fun rid => (getTableRowByRid table rid).isSome) ≤ (table.getD []).length := by
  have hsub : (l.filter fun rid => (getTableRowByRid table rid).isSome).Subperm (rids table) :=
    (hl.filter _).subperm fun rid hrid => mem_rids (List.mem_filter.mp hrid).2
  have hle := hsub.length_le
  rw [← List.countP_eq_length_filter, rids, List.length_map, List.length_range] at hle
  exact hle

end

variable {net : ClrData}

/-! ## The chain of enclosing classes -/

theorem enclosingLink_mem {rid : Nat} (h : (enclosingLink net rid).isSome) :
    rid ∈ rids net.typeDef := by
  unfold enclosingLink at h
  split at h
  · next hrow => exact mem_rids hrow
  · cases h

theorem typedefLoop_mono {typedef : TypeDef} {fuel cursor : Nat} {names : List String}
    {r : String × List String}
    (h : typedefLoop net (nestedClassTable net) typedef fuel cursor names = some r) {fuel' : Nat}
    (hf : fuel ≤ fuel') :
    typedefLoop net (nestedClassTable net) typedef fuel' cursor names = some r := by
  induction fuel generalizing cursor names fuel' with
  | zero => cases h
  | succ fuel ih =>
    obtain ⟨fuel', rfl⟩ : ∃ n, fuel' = n + 1 := ⟨fuel' - 1, by omega⟩
    unfold typedefLoop at h ⊢
    split at h
    · exact h
    · split at h
      · exact h
      · exact ih h (by omega)

/-- The loop returns when the chain ends, and pushes a name for each row on it. -/
theorem typedefLoop_spec (net : ClrData) (typedef : TypeDef) (fuel cursor : Nat) (names : List String) :
    match follow (enclosingLink net) fuel cursor with
    | none => typedefLoop net (nestedClassTable net) typedef fuel cursor names = none
    | some l => ∃ r, typedefLoop net (nestedClassTable net) typedef fuel cursor names = some r ∧
        r.2.length = names.length + l.countP fun rid => (getTableRowByRid net.typeDef rid).isSome := by
  induction fuel generalizing cursor names with
  | zero => rfl
  | succ fuel ih =>
    rw [follow, typedefLoop, enclosingLink]
    cases hrow : getTableRowByRid net.typeDef cursor with
    | none =>
      cases (nestedClassTable net).get? cursor with
      | none => exact ⟨_, rfl, by simp [outermostTypedef, hrow]⟩
      | some next => exact ⟨_, rfl, by simp [hrow]⟩
    | some row =>
      rw [Option.isSome_some, if_pos rfl]
      cases (nestedClassTable net).get? cursor with
      | none => exact ⟨_, rfl, by simp [outermostTypedef, hrow]⟩
      | some next =>
        have ih := ih next (names ++ [row.typeName])
        dsimp only
        cases hl : follow (enclosingLink net) fuel next with
        | none =>
          rw [hl] at ih
          exact ih
        | some l =>
          rw [hl] at ih
          obtain ⟨r, hr, hlen⟩ := ih
          refine ⟨r, hr, ?_⟩
          rw [hlen, List.length_append, List.length_singleton, List.countP_cons, hrow]
          rw [Option.isSome_some, if_pos rfl]
          omega

/-! ## The chain of resolution scopes -/

theorem scopeLink_mem {rid : Nat} (h : (scopeLink net rid).isSome) : rid ∈ rids net.typeRef := by
  unfold scopeLink at h
  cases hrow : getTableRowByRid net.typeRef rid with
  | none => rw [hrow] at h; cases h
  | some row => exact mem_rids (by rw [hrow]; rfl)

theorem typerefLoop_mono {typeref row : TypeRef} {fuel : Nat} {name : String} {names : List String}
    {r : String × List String} (h : typerefLoop net typeref fuel row name names = some r)
    {fuel' : Nat} (hf : fuel ≤ fuel') : typerefLoop net typeref fuel' row name names = some r := by
  induction fuel generalizing row name names fuel' with
  | zero => cases h
  | succ fuel ih =>
    obtain ⟨fuel', rfl⟩ : ∃ n, fuel' = n + 1 := ⟨fuel' - 1, by omega⟩
    unfold typerefLoop at h ⊢
    split at h
    · next hscope =>
      rw [if_pos hscope]
      split at h
      · exact h
      · exact ih h (by omega)
    · next hscope =>
      rw [if_neg hscope]
      exact h

/-- A loop that returns has come to the end of the chain, with a name for each row on it. -/
theorem follow_of_typerefLoop {typeref row : TypeRef} {fuel rid : Nat} {name : String}
    {names : List String} {r : String × List String}
    (hrow : getTableRowByRid net.typeRef rid = some row)
    (h : typerefLoop net typeref fuel row name names = some r) :
    ∃ l, follow (scopeLink net) (fuel + 1) rid = some l ∧
      r.2.length = names.length + l.countP fun rid => (getTableRowByRid net.typeRef rid).isSome := by
  induction fuel generalizing row rid name names with
  | zero => cases h
  | succ fuel ih =>
    rw [typerefLoop] at h
    have hlink : scopeLink net rid = if row.resolutionScope.table = .typeRef then
        some row.resolutionScope.rowIndex else none := by
      rw [scopeLink, hrow]
      rfl
    rw [follow, hlink]
    split at h
    · next hscope =>
      rw [if_pos hscope]
      dsimp only
      split at h
      · next hnone =>
        obtain rfl := Option.some.inj h
        have hend : scopeLink net row.resolutionScope.rowIndex = none := by
          rw [scopeLink, hnone]
          rfl
        rw [follow, hend]
        exact ⟨_, rfl, by simp [hrow, hnone]⟩
      · next row' hrow' =>
        obtain ⟨l, hl, hlen⟩ := ih hrow' h
        rw [hl]
        refine ⟨_, rfl, ?_⟩
        rw [hlen, List.length_append, List.length_singleton, List.countP_cons, hrow]
        rw [Option.isSome_some, if_pos rfl]
        omega
    · next hscope =>
      rw [if_neg hscope]
      obtain rfl := Option.some.inj h
      exact ⟨_, rfl, by simp [hrow]⟩

theorem typerefLoop_of_follow {typeref row : TypeRef} {fuel rid : Nat} {name : String}
    {names : List String} {l : List Nat} (hrow : getTableRowByRid net.typeRef rid = some row)
    (h : follow (scopeLink net) fuel rid = some l) :
    ∃ r, typerefLoop net typeref fuel row name names = some r := by
  induction fuel generalizing row rid name names l with
  | zero => cases h
  | succ fuel ih =>
    rw [typerefLoop]
    by_cases hscope : row.resolutionScope.table = .typeRef
    · rw [if_pos hscope]
      have hlink : Link (scopeLink net) rid row.resolutionScope.rowIndex := by
        rw [Link, scopeLink, hrow]
        exact if_pos hscope
      obtain ⟨fuel', l', he, hl', _⟩ := follow_link hlink h
      obtain rfl : fuel = fuel' := Nat.succ.inj he
      split
      · exact ⟨_, rfl⟩
      · next row' hrow' => exact ih hrow' hl'
    · rw [if_neg hscope]
      exact ⟨_, rfl⟩

/-! ## Resolution -/

/-- With enough fuel the computation has this result. -/
def Returns {α : Type} (f : Nat → Option α) (r : α) : Prop :=
  ∃ bound, ∀ fuel, bound ≤ fuel → f fuel = some r

/-- Every name resolves, with no more segments than the table has rows, and so does every function
    that asks for names. -/
structure Resolves (net : ClrData) : Prop where
  typedef : ∀ i typedef, (net.typeDef.getD [])[i]? = some typedef →
    ∃ r, Returns (fun fuel => resolveNestedTypedefName fuel net (nestedClassTable net) (i + 1)
      typedef) r ∧ r.2.length ≤ (net.typeDef.getD []).length
  typeref : ∀ rid, ∀ typeref ∈ net.typeRef.getD [],
    ∃ r, Returns (fun fuel => resolveNestedTyperefName fuel net rid typeref) r ∧
      r.2.length ≤ (net.typeRef.getD []).length
  types : ∃ out, Returns (fun fuel => types fuel net) out
  managedImports : ∃ out, Returns (fun fuel => managedImports fuel net) out
  managedMethods : ∃ out, Returns (fun fuel => managedMethods fuel net) out
  fields : ∃ out, Returns (fun fuel => fields fuel net) out

/-- No class encloses itself and no reference is its own scope, directly or through others. -/
structure Wellfounded (net : ClrData) : Prop where
  enclosing : ∀ rid, ¬ TransGen (Link (enclosingLink net)) rid rid
  scope : ∀ rid, ¬ TransGen (Link (scopeLink net)) rid rid

namespace Wellfounded

variable (h : Wellfounded net)
include h

theorem follow_enclosing {fuel : Nat} (hf : (net.typeDef.getD []).length < fuel) (rid : Nat) :
    ∃ l, follow (enclosingLink net) fuel rid = some l := by
  refine follow_of_acyclic (fun _ => enclosingLink_mem) (fun b _ => h.enclosing b) ?_
  rwa [rids, List.length_map, List.length_range]

theorem follow_scope {fuel : Nat} (hf : (net.typeRef.getD []).length < fuel) (rid : Nat) :
    ∃ l, follow (scopeLink net) fuel rid = some l := by
  refine follow_of_acyclic (fun _ => scopeLink_mem) (fun b _ => h.scope b) ?_
  rwa [rids, List.length_map, List.length_range]

/-- The names of a type, whatever row and whatever map entry the walk starts from. -/
theorem typedef_isSome {fuel : Nat} (hf : (net.typeDef.getD []).length < fuel) (rid : Nat)
    (typedef : TypeDef) :
    ∃ r, resolveNestedTypedefName fuel net (nestedClassTable net) rid typedef = some r := by
  unfold resolveNestedTypedefName
  split
  · exact ⟨_, rfl⟩
  · next first _ =>
    have hspec := typedefLoop_spec net typedef fuel first [typedef.typeName]
    obtain ⟨l, hl⟩ := h.follow_enclosing hf first
    rw [hl] at hspec
    obtain ⟨r, hr, _⟩ := hspec
    exact ⟨r, hr⟩

theorem typeref_isSome {fuel : Nat} (hf : (net.typeRef.getD []).length < fuel) (rid : Nat)
    (typeref : TypeRef) : ∃ r, resolveNestedTyperefName fuel net rid typeref = some r := by
  unfold resolveNestedTyperefName
  split
  · split
    · exact ⟨_, rfl⟩
    · next row hrow =>
      obtain ⟨l, hl⟩ := h.follow_scope hf rid
      exact typerefLoop_of_follow hrow hl
  · exact ⟨_, rfl⟩

end Wellfounded

theorem resolveNestedTypedefName_mono {fuel fuel' rid : Nat} {typedef : TypeDef}
    {r : String × List String}
    (h : resolveNestedTypedefName fuel net (nestedClassTable net) rid typedef = some r)
    (hf : fuel ≤ fuel') :
    resolveNestedTypedefName fuel' net (nestedClassTable net) rid typedef = some r := by
  unfold resolveNestedTypedefName at h ⊢
  split at h
  · exact h
  · exact typedefLoop_mono h hf

theorem resolveNestedTyperefName_mono {fuel fuel' rid : Nat} {typeref : TypeRef}
    {r : String × List String} (h : resolveNestedTyperefName fuel net rid typeref = some r)
    (hf : fuel ≤ fuel') : resolveNestedTyperefName fuel' net rid typeref = some r := by
  unfold resolveNestedTyperefName at h ⊢
  split at h
  · next hscope =>
    rw [if_pos hscope]
    split at h
    · exact h
    · exact typerefLoop_mono h hf
  · next hscope => rwa [if_neg hscope]

/-- The segments of a name are names of distinct rows. -/
theorem resolveNestedTypedefName_length {fuel i : Nat} {typedef : TypeDef}
    {r : String × List String} (hrow : (net.typeDef.getD [])[i]? = some typedef)
    (h : resolveNestedTypedefName fuel net (nestedClassTable net) (i + 1) typedef = some r) :
    r.2.length ≤ (net.typeDef.getD []).length := by
  have hpos : 0 < (net.typeDef.getD []).length :=
    Nat.lt_of_le_of_lt (Nat.zero_le i) (List.getElem?_eq_some_iff.mp hrow).1
  have hsome : getTableRowByRid net.typeDef (i + 1) = some typedef := by
    rw [getTableRowByRid_succ, hrow]
  unfold resolveNestedTypedefName at h
  split at h
  · obtain rfl := Option.some.inj h
    exact hpos
  · next first hfirst =>
    have hlink : enclosingLink net (i + 1) = some first := by
      rw [enclosingLink, hsome]
      exact hfirst
    have hspec := typedefLoop_spec net typedef fuel first [typedef.typeName]
    cases hl : follow (enclosingLink net) fuel first with
    | none =>
      rw [hl] at hspec
      cases hspec.symm.trans h
    | some l =>
      rw [hl] at hspec
      obtain ⟨r', hr, hlen⟩ := hspec
      obtain rfl : r' = r := Option.some.inj (hr.symm.trans h)
      have hfollow : follow (enclosingLink net) (fuel + 1) (i + 1) = some ((i + 1) :: l) := by
        rw [follow_succ_some hlink, hl]
        rfl
      have hnodup : ((i + 1) :: l).Nodup := follow_nodup hfollow
      have hle := countP_rows_le net.typeDef hnodup
      rw [List.countP_cons, hsome, Option.isSome_some, if_pos rfl] at hle
      rw [hlen, List.length_singleton]
      omega

theorem resolveNestedTyperefName_length {fuel rid : Nat} {typeref : TypeRef}
    {r : String × List String} (hmem : typeref ∈ net.typeRef.getD [])
    (h : resolveNestedTyperefName fuel net rid typeref = some r) :
    r.2.length ≤ (net.typeRef.getD []).length := by
  have hpos : 0 < (net.typeRef.getD []).length := List.length_pos_of_mem hmem
  unfold resolveNestedTyperefName at h
  split at h
  · split at h
    · obtain rfl := Option.some.inj h
      exact hpos
    · next row hrow =>
      obtain ⟨l, hl, hlen⟩ := follow_of_typerefLoop hrow h
      have hle := countP_rows_le net.typeRef (follow_nodup hl)
      rw [List.length_nil] at hlen
      omega
  · obtain rfl := Option.some.inj h
    exact hpos

theorem bind_isSome {α β : Type} {o : Option α} {f : α → Option β} (h : ∃ a, o = some a)
    (hf : ∀ a, ∃ b, f a = some b) : ∃ b, (o >>= f) = some b := by
  obtain ⟨a, rfl⟩ := h
  exact hf a

theorem pushAll_isSome {α β : Type} {rows : List α} {push : α → Nat → Option (List β)}
    (h : ∀ a i, ∃ bs, push a i = some bs) : ∃ out, pushAll rows push = some out := by
  have hmap : ∀ l : List (α × Nat), ∃ bs, l.mapM (fun row => push row.1 row.2) = some bs := by
    intro l
    induction l with
    | nil => exact ⟨[], rfl⟩
    | cons a l ih =>
      obtain ⟨bs, hbs⟩ := ih
      obtain ⟨b, hb⟩ := h a.1 a.2
      exact ⟨b :: bs, by rw [List.mapM_cons, hb, hbs]; rfl⟩
  obtain ⟨bs, hbs⟩ := hmap rows.zipIdx
  exact ⟨bs.flatten, by rw [pushAll, hbs]; rfl⟩

/-- More fuel than rows resolves every name of a well-founded metadata, and more still changes
    nothing. -/
theorem Wellfounded.returns (h : Wellfounded net) {α : Type} {f : Nat → Option α} {bound : Nat}
    (hsome : ∃ r, f bound = some r)
    (hcongr : ∀ fuel, (∀ rid typedef,
        resolveNestedTypedefName fuel net (nestedClassTable net) rid typedef =
          resolveNestedTypedefName bound net (nestedClassTable net) rid typedef) →
      (∀ rid typeref, resolveNestedTyperefName fuel net rid typeref =
        resolveNestedTyperefName bound net rid typeref) → f fuel = f bound)
    (hdef : (net.typeDef.getD []).length < bound) (href : (net.typeRef.getD []).length < bound) :
    ∃ r, Returns f r := by
  obtain ⟨r, hr⟩ := hsome
  refine ⟨r, bound, fun fuel hf => ?_⟩
  rw [hcongr fuel (fun rid typedef => ?_) fun rid typeref => ?_, hr]
  · obtain ⟨r, hr⟩ := h.typedef_isSome hdef rid typedef
    rw [hr, resolveNestedTypedefName_mono hr hf]
  · obtain ⟨r, hr⟩ := h.typeref_isSome href rid typeref
    rw [hr, resolveNestedTyperefName_mono hr hf]

theorem Wellfounded.membersOf_isSome (h : Wellfounded net) {fuel : Nat}
    (hf : (net.typeDef.getD []).length < fuel) (list : TypeDef → List CodedIndex)
    (names : List String) (member : CodedIndex → String → List String → String → DnType) :
    ∃ out, membersOf fuel net list names member = some out := by
  unfold membersOf
  refine pushAll_isSome fun typedef i => pushAll_isSome fun entry _ => ?_
  split
  · exact ⟨[], rfl⟩
  · obtain ⟨r, hr⟩ := h.typedef_isSome hf (i + 1) typedef
    exact ⟨_, by rw [hr]; rfl⟩

theorem Wellfounded.resolves (h : Wellfounded net) : Resolves net := by
  let bound := (net.typeDef.getD []).length + (net.typeRef.getD []).length + 1
  have hdef : (net.typeDef.getD []).length < bound := by dsimp only [bound]; omega
  have href : (net.typeRef.getD []).length < bound := by dsimp only [bound]; omega
  refine ⟨fun i typedef hrow => ?_, fun rid typeref hmem => ?_, ?_, ?_, ?_, ?_⟩
  · obtain ⟨r, hr⟩ := h.typedef_isSome hdef (i + 1) typedef
    exact ⟨r, ⟨bound, fun fuel hf => resolveNestedTypedefName_mono hr hf⟩,
      resolveNestedTypedefName_length hrow hr⟩
  · obtain ⟨r, hr⟩ := h.typeref_isSome href rid typeref
    exact ⟨r, ⟨bound, fun fuel hf => resolveNestedTyperefName_mono hr hf⟩,
      resolveNestedTyperefName_length hmem hr⟩
  · refine h.returns ?_ (fun fuel hd hr => ?_) hdef href
    · unfold types
      refine bind_isSome (pushAll_isSome fun row i => ?_) fun defs =>
        bind_isSome (pushAll_isSome fun row i => ?_) fun refs => ⟨defs ++ refs, rfl⟩
      · exact bind_isSome (h.typedef_isSome hdef (i + 1) row) fun r => ⟨_, rfl⟩
      · exact bind_isSome (h.typeref_isSome href row.resolutionScope.rowIndex row) fun r => ⟨_, rfl⟩
    · simp only [types, hd, hr]
  · refine h.returns ?_ (fun fuel hd hr => ?_) hdef href
    · refine pushAll_isSome fun row i => ?_
      split
      · split
        · exact ⟨[], rfl⟩
        · next typeref _ =>
          obtain ⟨r, hr⟩ := h.typeref_isSome href row.class_.rowIndex typeref
          exact ⟨_, by rw [hr]; rfl⟩
      · exact ⟨[], rfl⟩
    · simp only [managedImports, hr]
  · refine h.returns ?_ (fun fuel hd hr => ?_) hdef href
    · unfold managedMethods
      cases net.methodDef with
      | none => exact ⟨[], rfl⟩
      | some methods => exact h.membersOf_isSome hdef _ methods _
    · simp only [managedMethods, membersOf, hd]
  · refine h.returns ?_ (fun fuel hd hr => ?_) hdef href
    · unfold fields
      cases net.field with
      | none => exact ⟨[], rfl⟩
      | some names => exact h.membersOf_isSome hdef _ names _
    · simp only [fields, membersOf, hd]

/-- Names resolve exactly when no `TypeDef` row is nested in itself and no `TypeRef` row is its own
    resolution scope, through any number of rows. -/
theorem resolves_iff (net : ClrData) : Resolves net ↔ Wellfounded net := by
  refine ⟨fun h => ⟨fun rid hcycle => ?_, fun rid hcycle => ?_⟩, Wellfounded.resolves⟩
  · obtain ⟨first, hlink, hback⟩ := TransGen.head'_iff.mp hcycle
    have hlink : enclosingLink net rid = some first := hlink
    unfold enclosingLink at hlink
    split at hlink
    · next hsome =>
      obtain ⟨typedef, htypedef⟩ := Option.isSome_iff_exists.mp hsome
      obtain ⟨i, rfl, hrow⟩ := exists_row htypedef
      obtain ⟨r, ⟨bound, hr⟩, _⟩ := h.typedef i typedef hrow
      have hr := hr bound (Nat.le_refl bound)
      dsimp only at hr
      rw [resolveNestedTypedefName, hlink] at hr
      have hspec := typedefLoop_spec net typedef bound first [typedef.typeName]
      cases hl : follow (enclosingLink net) bound first with
      | none =>
        rw [hl] at hspec
        cases hspec.symm.trans hr
      | some l => exact acyclicFrom_of_follow hl (i + 1) hback hcycle
    · cases hlink
  · obtain ⟨next, hlink, hback⟩ := TransGen.head'_iff.mp hcycle
    have hlink : scopeLink net rid = some next := hlink
    obtain ⟨row, hrow, hscope⟩ := Option.bind_eq_some_iff.mp hlink
    split at hscope
    · next htable =>
      obtain ⟨i, rfl, hget⟩ := exists_row hrow
      obtain ⟨r, ⟨bound, hr⟩, _⟩ := h.typeref (i + 1) row (List.mem_of_getElem? hget)
      have hr := hr bound (Nat.le_refl bound)
      dsimp only at hr
      rw [resolveNestedTyperefName, if_pos htable, hrow] at hr
      obtain ⟨l, hl, _⟩ := follow_of_typerefLoop hrow hr
      exact not_cycle hl hcycle
    · cases hscope

/-! ## A class nested in itself -/

/-- One class that is nested in itself. -/
def selfNested : ClrData where
  typeDef := some [⟨"Loop", "", [], []⟩]
  typeRef := none
  nestedClass := some [(1, 1)]
  memberRef := none
  methodDef := none
  field := none
  methodSemantics := none

/-- The name of a class nested in itself never resolves. -/
theorem selfNested_never_returns : ∀ fuel, resolveNestedTypedefName fuel selfNested
    (nestedClassTable selfNested) 1 ⟨"Loop", "", [], []⟩ = none := by
  have hloop : ∀ fuel names, typedefLoop selfNested (nestedClassTable selfNested)
      ⟨"Loop", "", [], []⟩ fuel 1 names = none := by
    intro fuel
    induction fuel with
    | zero => exact fun _ => rfl
    | succ fuel ih => exact fun names => ih _
  exact fun fuel => hloop fuel ["Loop"]

theorem selfNested_not_resolves : ¬ Resolves selfNested := by
  intro h
  obtain ⟨r, ⟨bound, hr⟩, _⟩ := h.typedef 0 ⟨"Loop", "", [], []⟩ rfl
  exact absurd ((selfNested_never_returns bound).symm.trans (hr bound (Nat.le_refl bound)))
    (fun he => nomatch he)

end CapaX.Dotnet
