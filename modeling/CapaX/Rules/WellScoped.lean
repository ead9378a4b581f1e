import CapaX.Rules.Built

/-
  Accepted rule bodies are well scoped: every feature is legal for the scopes in force where it
  stands, every subscope goes down, and indices, byte strings and ranges are within their limits
  (`buildStatements_wellScoped`).
-/

namespace CapaX

open Yaml Text

/-! ## Legal features -/

/-- The features a rule of a scope may use: a characteristic by its value, another feature by
    its kind. -/
def Scope.Offers (scope : Scope) : Feature → Prop
  | .characteristic value => value ∈ (supportedFeatures scope).characteristics
  | feature => ∀ kind ∈ featureKind feature, kind ∈ (supportedFeatures scope).kinds

def Feature.IsCom : Feature → Prop
  | .com _ _ => True
  | _ => False

/-- One of the scopes in force offers the feature. COM features stand anywhere. -/
def Legal (scopes : Scopes) (feature : Feature) : Prop :=
  feature.IsCom ∨ ∃ scope, scopes.contains scope = true ∧ scope.Offers feature

theorem mem_toList_iff {scopes : Scopes} {scope : Scope} :
    scope ∈ scopes.toList ↔ scopes.contains scope = true := by
  simp [Scopes.toList, Scopes.contains]

theorem legal_of_supports {scopes : Scopes} {feature : Feature}
    (h : supports scopes feature = true) : Legal scopes feature := by
  cases feature with
  | com kind name => exact Or.inl trivial
  | characteristic value =>
    obtain ⟨features, hmem, hvalue⟩ := List.any_eq_true.mp h
    obtain ⟨scope, hscope, rfl⟩ := List.mem_map.mp hmem
    have hvalue : value ∈ (supportedFeatures scope).characteristics := of_decide_eq_true hvalue
    exact Or.inr ⟨scope, mem_toList_iff.mp hscope, hvalue⟩
  | _ =>
    obtain ⟨scope, hscope, hmem⟩ := (supports_iff rfl).mp h
    refine Or.inr ⟨scope, hscope, fun kind hkind => ?_⟩
    rw [← Option.some.inj hkind]
    exact hmem

/-! ## Scopes going down -/

/-- `sub` is at or below `outer` in one of the two orders of scopes. -/
def Scope.Below (sub outer : Scope) : Prop :=
  ∃ order ∈ [staticScopeOrder, dynamicScopeOrder],
    outer ∈ order ∧ sub ∈ order ∧ order.idxOf outer ≤ order.idxOf sub

instance (sub outer : Scope) : Decidable (sub.Below outer) :=
  inferInstanceAs (Decidable (∃ order ∈ [staticScopeOrder, dynamicScopeOrder],
    outer ∈ order ∧ sub ∈ order ∧ order.idxOf outer ≤ order.idxOf sub))

theorem below_of_compatible {scope : Option Scope} {sub : Scope}
    (h : isSubscopeCompatible scope sub = true) :
    ∃ outer, scope = some outer ∧ sub.Below outer := by
  cases scope with
  | none => cases h
  | some outer =>
    have hall : ∀ outer sub, isSubscopeCompatible (some outer) sub = true → sub.Below outer := by
      intro outer sub
      cases outer <;> cases sub <;> decide
    exact ⟨outer, rfl, hall outer sub h⟩

/-! ## Ranges -/

section

variable [Format] {min max : Option UInt32}

omit [Format] in
theorem parseRange_le {s : String} (h : parseRange s = .ok (min, max)) :
    ∀ m, max = some m → min.getD 0 ≤ m := by
  unfold parseRange at h
  split at h
  · cases h
  · obtain ⟨lower, -, hupper⟩ := Control.bind_eq_ok.mp h
    obtain ⟨upper, -, hcheck⟩ := Control.bind_eq_ok.mp hupper
    split at hcheck
    · next mn mx =>
      split at hcheck
      · cases hcheck
      · next hle =>
        cases hcheck
        intro m hm
        obtain rfl := Option.some.inj hm
        exact UInt32.not_lt.mp hle
    · next hnone =>
      cases hcheck
      rintro m rfl
      cases min with
      | none => exact UInt32.zero_le
      | some n => exact absurd rfl (hnone n m rfl)

/-- Every way to write a count with an upper bound keeps the lower bound below it. -/
theorem parseCountSpec_le {raw : Value} (h : parseCountSpec raw = .ok (min, max)) :
    ∀ m, max = some m → min.getD 0 ≤ m := by
  unfold parseCountSpec at h
  split at h
  · split at h
    · cases h
    · split at h
      · cases h
        intro m hm
        rw [← Option.some.inj hm]
        exact UInt32.le_refl _
      · cases h
  · split at h
    · obtain ⟨n, -, hcount⟩ := Control.bind_eq_ok.mp h
      cases hcount
      exact nofun
    · split at h
      · obtain ⟨n, -, hcount⟩ := Control.bind_eq_ok.mp h
        cases hcount
        exact fun m _ => UInt32.zero_le
      · split at h
        · exact parseRange_le h
        · cases h
  · cases h

end

/-! ## Bodies -/

/-- A body that is well scoped at the scopes in force. -/
inductive WellScoped : Scopes → Node → Prop where
  | leaf {scopes feature description} (legal : Legal scopes feature) (bounded : feature.Bounded) :
      WellScoped scopes ⟨.leaf feature, description⟩
  | range {scopes feature min max description} (legal : Legal scopes feature)
      (bounded : feature.Bounded) (ordered : ∀ m, max = some m → min ≤ m) :
      WellScoped scopes ⟨.range feature min max, description⟩
  | and {scopes children description} (all : ∀ c ∈ children, WellScoped scopes c) :
      WellScoped scopes ⟨.and children, description⟩
  | or {scopes children description} (all : ∀ c ∈ children, WellScoped scopes c) :
      WellScoped scopes ⟨.or children, description⟩
  | some {scopes count children description} (all : ∀ c ∈ children, WellScoped scopes c) :
      WellScoped scopes ⟨.some count children, description⟩
  | not {scopes child description} (one : WellScoped scopes child) :
      WellScoped scopes ⟨.not child, description⟩
  | subscope {scopes sub outer body description} (nested : scopes.sameFlavour sub = .some outer)
      (below : sub.Below outer) (inside : WellScoped (.ofSubscope sub) body) :
      WellScoped scopes ⟨.subscope sub body, description⟩

theorem uniqueNodes_subset {nodes : List Node} {seen : List Feature} {n : Node}
    (h : n ∈ uniqueNodes nodes seen) : n ∈ nodes := by
  fun_induction uniqueNodes nodes seen with
  | case1 seen => exact h
  | case2 f d rest seen _ ih => exact List.mem_cons_of_mem _ (ih h)
  | case3 f d rest seen _ ih =>
    rcases List.mem_cons.mp h with rfl | h
    · exact List.mem_cons_self
    · exact List.mem_cons_of_mem _ (ih h)
  | case4 n rest seen _ ih =>
    rcases List.mem_cons.mp h with rfl | h
    · exact List.mem_cons_self
    · exact List.mem_cons_of_mem _ (ih h)

theorem Assembles.wellScoped {scopes inner : Scopes} {built : List Node} {stmt : Statement Node}
    {description : Option String} (h : Assembles scopes inner built stmt)
    (hbuilt : ∀ n ∈ built, WellScoped inner n) : WellScoped scopes ⟨stmt, description⟩ := by
  have hunique : ∀ n ∈ uniqueNodes built [], WellScoped inner n := fun n hn =>
    hbuilt n (uniqueNodes_subset hn)
  cases h with
  | and built => exact .and hunique
  | or built => exact .or hunique
  | some count built => exact .some hunique
  | not child => exact .not (hbuilt child List.mem_cons_self)
  | subscope child below =>
    obtain ⟨outer, houter, hbelow⟩ := below_of_compatible below
    exact .subscope houter hbelow (hbuilt child List.mem_cons_self)
  | instruction built below =>
    obtain ⟨outer, houter, hbelow⟩ := below_of_compatible below
    exact .subscope houter hbelow (.and hunique)

section

variable [Format] [RegexBackend]

theorem Builds.wellScoped {scopes : Scopes} {d : Mapping} {node : Node}
    (h : Builds scopes d node) : WellScoped scopes node := by
  induction h with
  | leaf hkey short found words facts => exact .leaf (legal_of_supports facts.legal) facts.bounded
  | count hkey short isCount hterm hfeature legal spec hsibling =>
    exact .range (legal_of_supports legal) (countFeature_spec hfeature).1 (parseCountSpec_le spec)
  | list hkey short isList hpop hparts assembles ih =>
    refine assembles.wellScoped fun n hn => ?_
    obtain ⟨p, hp, rfl⟩ := List.mem_map.mp hn
    exact ih p hp

/-- Every accepted rule body is well scoped and within the limits. -/
theorem buildStatements_wellScoped {d : Mapping} {scopes : Scopes} {node : Node}
    (h : buildStatements d scopes = .ok node) : WellScoped scopes node :=
  (buildStatements_builds h).wellScoped

end

/-- A mnemonic and up to four pairs of `nop`s in one basic block of a function. -/
theorem buildStatements_wellScoped_basicBlock :
    WellScoped ⟨some .function, none⟩
      ⟨.subscope .basicBlock ⟨.and [⟨.leaf (.mnemonic "xor"), none⟩,
        ⟨.range (.bytes [0x90, 0x90]) 1 (some 4), none⟩], none⟩, none⟩ :=
  @buildStatements_wellScoped .blank .empty [(.string "basic block", .sequence [.mapping
    [(.string "and", .sequence [.mapping [(.string "mnemonic", .string "xor")],
      .mapping [(.string "count(bytes(90 90))", .string "(1, 4)")]])]])] _ _ rfl

end CapaX
