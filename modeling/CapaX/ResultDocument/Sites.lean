import CapaX.ResultDocument.Tracing

/-
  Where the matches of a run stand and where their evidence points. `Sited` says of recorded
  matches that each is at a unit of a scope its rule has and that every address in its evidence
  tree is one of that unit: of its own features, of the units in it, or no address. The static
  driver keeps it through every loop (`sited_of_static`): no level matches rules of
  another scope, and nothing on the way brings in the address of a unit that is not below.
-/

namespace CapaX

open Collections Control

/-! ## Locations of a feature set -/

namespace FeatureSet

variable {L L' : Address → Prop} {fs other : FeatureSet}

/-- All locations of all features are among `L`. -/
def Within (L : Address → Prop) (fs : FeatureSet) : Prop := ∀ f, ∀ a ∈ fs.locations f, L a

theorem Within.mono (h : fs.Within L) (hL : ∀ a, L a → L' a) : fs.Within L' :=
  fun f a ha => hL a (h f a ha)

theorem within_empty : Within L ∅ := fun _ _ ha => absurd ha not_mem_locations_empty

theorem Within.get? (h : fs.Within L) {f : Feature} {locs : OrdSet Address}
    (hf : fs.get? f = some locs) : ∀ a ∈ locs, L a :=
  fun a ha => h f a (mem_locations_iff.mpr ⟨locs, hf, ha⟩)

theorem Within.entry (h : fs.Within L) {e : Feature × OrdSet Address} (he : e ∈ fs.entries)
    (hself : (e.1 == e.1) = true) : ∀ a ∈ e.2, L a := h.get? (IndexMap.get?_of_mem he hself)

theorem Within.publish (h : fs.Within L) {values : List String} {addr : Address} (ha : L addr) :
    (fs.publish values (.singleton addr)).Within L := by
  intro f a hmem
  obtain hmem | ⟨_, hmem⟩ := mem_locations_publish.mp hmem
  · exact h f a hmem
  · rw [OrdSet.mem_singleton.mp hmem]
    exact ha

theorem Within.mergeOwned (h : fs.Within L) (ho : other.Within L) :
    (fs.mergeOwned other).Within L := by
  intro f a ha
  obtain ha | ha := mem_locations_mergeOwned.mp ha
  · exact h f a ha
  · exact ho f a ha

theorem Within.merge (h : fs.Within L) (ho : other.Within L) : (fs.merge other).Within L := by
  rw [merge_eq_mergeOwned]
  exact h.mergeOwned ho

theorem Within.seed (h : fs.Within L) {features : List CapaX.Located} {globals : List Feature}
    (hf : ∀ e ∈ features, L e.1) (hnone : L .noAddress) :
    (CapaX.seed fs features globals).Within L := by
  intro f a ha
  obtain ha | ⟨e, he, _, rfl⟩ | ⟨_, _, _, rfl⟩ := mem_locations_seed.mp ha
  · exact h f a ha
  · exact hf e he
  · exact hnone

/-- A guarded insertion adds the address it is given, or nothing. -/
theorem Within.guardedInsert (h : fs.Within L) (f : Feature) {addr : Address} (haddr : L addr) :
    (CapaX.guardedInsert fs f addr).Within L := by
  unfold CapaX.guardedInsert
  split
  · intro g a ha
    obtain ha | ⟨_, rfl⟩ := mem_locations_insert.mp ha
    · exact h g a ha
    · exact haddr
  · intro g a ha
    obtain ⟨locs, hget, hmem⟩ := mem_locations_iff.mp ha
    rw [IndexMap.get?_upsert] at hget
    split at hget
    · obtain rfl := Option.some.inj hget
      cases hold : fs.get? f with
      | none =>
        rw [hold] at hmem
        exact absurd hmem (OrdSet.not_mem_empty a)
      | some locs =>
        rw [hold] at hmem
        exact h.get? hold a hmem
    · exact h.get? hget a hmem

theorem within_seedFile {fileFeatures : List CapaX.Located} {globals : List Feature}
    (hf : ∀ e ∈ fileFeatures, L e.1) (hnone : L .noAddress) :
    (seedFile fileFeatures globals).Within L := by
  have hfold : ∀ {α : Type} (f : α → Feature) (a : α → Address) (l : List α) {fs : FeatureSet},
      fs.Within L → (∀ x ∈ l, L (a x)) →
        Within L (l.foldl (fun fs x => CapaX.guardedInsert fs (f x) (a x)) fs) := by
    intro α f a l
    induction l with
    | nil => exact fun h _ => h
    | cons x l ih =>
      exact fun h hl => ih (h.guardedInsert _ (hl x List.mem_cons_self))
        fun y hy => hl y (List.mem_cons_of_mem _ hy)
  exact hfold (fun f => f) (fun _ => .noAddress) globals
    (hfold (·.2) (·.1) fileFeatures within_empty hf) fun _ _ => hnone

end FeatureSet

/-! ## Locations of evidence -/

/-- All locations in the tree are among `L`. -/
def MatchResult.Within (L : Address → Prop) (m : MatchResult) : Prop :=
  ∀ t ∈ m.nodes, ∀ a ∈ t.locations, L a

section

variable {L : Address → Prop}

theorem MatchResult.within_of_children {m : MatchResult} (h : ∀ a ∈ m.locations, L a)
    (hc : ∀ c ∈ m.children, c.Within L) : m.Within L := by
  intro t ht
  obtain rfl | ⟨c, hmem, ht⟩ := MatchResult.mem_nodes.mp ht
  · exact h
  · exact hc c hmem t ht

variable {fs : FeatureSet}

theorem evalFirst_within (hfs : fs.Within L) {query : Feature} {p : Feature → Bool}
    {d : Option String} (hp : ∀ f, p f = true → (f == f) = true) :
    (evalFirst query p fs d).Within L := by
  unfold evalFirst
  split
  · next locs hfind =>
    have hself := hp _ (List.find?_some (p := fun e : Feature × OrdSet Address => p e.1) hfind)
    exact MatchResult.within_of_children (hfs.entry (List.mem_of_find?_eq_some hfind) hself)
      fun c hc => absurd hc List.not_mem_nil
  · exact MatchResult.within_of_children (fun a ha => absurd ha (OrdSet.not_mem_empty a))
      fun c hc => absurd hc List.not_mem_nil

variable [RegexBackend]

theorem scanStrings_within {m : StringMatch} {needle : String} {sc : Bool}
    {es : List (Feature × OrdSet Address)}
    (hes : ∀ e ∈ es, ∀ v, stringValue e.1 = some v → ∀ a ∈ e.2, L a)
    {acc : Bool × OrdSet Address × Captures} (hacc : ∀ a ∈ acc.2.1, L a) :
    ∀ a ∈ (scanStrings m needle sc es acc).2.1, L a := by
  induction es generalizing acc with
  | nil => exact hacc
  | cons e es ih =>
    have hrest := fun x hx => hes x (List.mem_cons_of_mem e hx)
    obtain ⟨any, locations, captures⟩ := acc
    rw [scanStrings]
    split
    · exact ih hrest hacc
    · next haystack hv =>
      have hunion : ∀ a ∈ locations ∪ e.2, L a := by
        intro a ha
        obtain ha | ha := OrdSet.mem_union.mp ha
        · exact hacc a ha
        · exact hes e List.mem_cons_self haystack hv a ha
      split
      · dsimp only
        split
        · exact hunion
        · exact ih hrest hunion
      · exact ih hrest hacc

theorem evalLeaf_within (hfs : fs.Within L) {f : Feature} {d : Option String} {m : MatchResult}
    (h : evalLeaf f fs false d = .ok m) : m.Within L := by
  have hscan : ∀ (query : Feature) (needle : String) (sm : StringMatch),
      (evalStringScan query needle sm fs false d).Within L := fun query needle sm =>
    MatchResult.within_of_children
      (scanStrings_within (fun e he v hv => hfs.entry he (beq_self_of_stringValue hv))
        fun a ha => absurd ha (OrdSet.not_mem_empty a))
      fun c hc => absurd hc List.not_mem_nil
  have hexact : (evalExact f fs d).Within L := by
    unfold evalExact
    split
    · next locs hget =>
      exact MatchResult.within_of_children (hfs.get? hget) fun c hc => absurd hc List.not_mem_nil
    · exact MatchResult.within_of_children (fun a ha => absurd ha (OrdSet.not_mem_empty a))
        fun c hc => absurd hc List.not_mem_nil
  have hloose : ∀ {p : Feature → Bool}, (∀ f, f.comparesLoosely = true → p f = false) →
      ∀ f, p f = true → (f == f) = true := by
    intro p hp f hf
    refine Feature.beq_self (Bool.eq_false_iff.mpr fun hl => ?_)
    rw [hp f hl] at hf
    cases hf
  unfold evalLeaf at h
  split at h
  · exact Except.ok.inj h ▸ hscan _ _ _
  · exact Except.ok.inj h ▸ hscan _ _ _
  · refine Except.ok.inj h ▸ evalFirst_within hfs (hloose fun f hf => ?_)
    cases f <;> first | rfl | cases hf
  · refine Except.ok.inj h ▸ evalFirst_within hfs (hloose fun f hf => ?_)
    cases f <;> first | rfl | cases hf
  · cases h
  · exact Except.ok.inj h ▸ hexact

/-- The evidence of a body points only where the features are. -/
theorem evaluate_within (hfs : fs.Within L) {n : Node} {m : MatchResult}
    (h : evaluate fs false n = .ok m) : m.Within L := by
  have hnone : ∀ a ∈ (∅ : OrdSet Address), L a := fun a ha => absurd ha (OrdSet.not_mem_empty a)
  have hall : ∀ {cs : List Node} {rs : List MatchResult}, evalAll fs cs = .ok rs →
      (∀ c ∈ cs, ∀ {m : MatchResult}, evaluate fs false c = .ok m → m.Within L) →
      ∀ r ∈ rs, r.Within L := by
    intro cs rs hrs ih r hr
    obtain ⟨c, hc, he⟩ := evalAll_children hrs r hr
    exact ih c hc he
  induction n using Node.induct generalizing m with
  | and cs d ih =>
    rw [evaluate] at h
    obtain ⟨rs, hrs, h⟩ := bind_eq_ok.mp h
    obtain rfl := Except.ok.inj h
    exact MatchResult.within_of_children hnone (hall hrs fun c hc _ => ih c hc)
  | or cs d ih =>
    rw [evaluate] at h
    obtain ⟨rs, hrs, h⟩ := bind_eq_ok.mp h
    obtain rfl := Except.ok.inj h
    exact MatchResult.within_of_children hnone (hall hrs fun c hc _ => ih c hc)
  | not c d ih =>
    rw [evaluate] at h
    obtain ⟨r, hr, h⟩ := bind_eq_ok.mp h
    obtain rfl := Except.ok.inj h
    exact MatchResult.within_of_children hnone fun c hc => List.mem_singleton.mp hc ▸ ih hr
  | some n cs d ih =>
    rw [evaluate] at h
    obtain ⟨rs, hrs, h⟩ := bind_eq_ok.mp h
    obtain rfl := Except.ok.inj h
    exact MatchResult.within_of_children hnone (hall hrs fun c hc _ => ih c hc)
  | range f min max d =>
    rw [evaluate] at h
    obtain rfl := Except.ok.inj h
    unfold evalRange
    dsimp only
    split
    · exact MatchResult.within_of_children hnone fun c hc => absurd hc List.not_mem_nil
    · exact MatchResult.within_of_children (hfs f) fun c hc => absurd hc List.not_mem_nil
  | subscope s b d ih =>
    rw [evaluate] at h
    cases h
  | leaf f d =>
    rw [evaluate] at h
    exact evalLeaf_within hfs h

end

/-! ## Recorded matches -/

/-- A match of the rule of the name: it is at a unit of a scope the rule has, its evidence points
    into that unit, and it is the evidence of the rule's body.
    `Unit scope a L` is read: there is a unit of the scope at `a` whose addresses are `L`. -/
def SitedAt [RegexBackend] (set : MatchingRuleSet)
    (Unit : Scope → Address → (Address → Prop) → Prop) (name : String)
    (r : Address × MatchResult) : Prop :=
  ∃ rule scope L, set.get name = some rule ∧ rule.scopes.contains scope = true ∧
    Unit scope r.1 L ∧ r.2.Within L ∧ ∃ fs, evaluate fs false rule.body = .ok r.2

def Sited [RegexBackend] (set : MatchingRuleSet)
    (Unit : Scope → Address → (Address → Prop) → Prop) (results : MatchResults) : Prop :=
  ∀ name res, results.get? name = some res → ∀ r ∈ res, SitedAt set Unit name r

section

variable {set : MatchingRuleSet} {Unit Unit' : Scope → Address → (Address → Prop) → Prop}
  {L : Address → Prop} {into source results : MatchResults} {fs : FeatureSet}

theorem Sited.mono [RegexBackend] (h : Sited set Unit results)
    (hunit : ∀ scope a L, Unit scope a L → Unit' scope a L) : Sited set Unit' results := by
  intro name res hres r hr
  obtain ⟨rule, scope, L, hget, hscope, hu, hw⟩ := h name res hres r hr
  exact ⟨rule, scope, L, hget, hscope, hunit scope r.1 L hu, hw⟩

theorem Sited.empty [RegexBackend] : Sited set Unit ∅ := fun name res h => by
  rw [IndexMap.get?_empty] at h
  cases h

theorem Sited.append [RegexBackend] {name : String} {res : List (Address × MatchResult)}
    (h : Sited set Unit results) (hres : ∀ r ∈ res, SitedAt set Unit name r) :
    ∀ r ∈ (results.get? name).getD [] ++ res, SitedAt set Unit name r := by
  intro r hr
  obtain hr | hr := List.mem_append.mp hr
  · cases hold : results.get? name with
    | none =>
      rw [hold] at hr
      exact absurd hr List.not_mem_nil
    | some old =>
      rw [hold] at hr
      exact h name old hold r hr
  · exact hres r hr

theorem Sited.extend [RegexBackend] {order : IterOrder} (hi : Sited set Unit into)
    (hs : Sited set Unit source) : Sited set Unit (extendMatches order into source) := by
  intro name res hres r hr
  rw [get?_extendMatches] at hres
  cases hsrc : source.get? name with
  | none =>
    rw [hsrc] at hres
    exact hi name res hres r hr
  | some res' =>
    rw [hsrc] at hres
    obtain rfl := Option.some.inj hres
    exact hi.append (hs name res' hsrc) r hr

/-- Match features are put where the matches are. -/
theorem FeatureSet.Within.promoteMatches (h : fs.Within L)
    (hs : ∀ name res, results.get? name = some res → ∀ r ∈ res, L r.1) {order : IterOrder} :
    (CapaX.promoteMatches set order fs results).Within L := by
  intro f a ha
  obtain ha | ⟨name, res, rule, hres, _, _, r, hr, rfl⟩ := mem_locations_promoteMatches.mp ha
  · exact h f a ha
  · exact hs name res hres r hr

theorem within_publishMatches {entries : List (String × List (Address × MatchResult))}
    (h : ∀ e ∈ entries, ∀ r ∈ e.2, L r.1) : (publishMatches set entries).Within L := by
  intro f a ha
  rw [publishMatches_eq, FeatureSet.mem_locations_publishAll,
    or_iff_right FeatureSet.not_mem_locations_empty] at ha
  obtain ⟨p, hp, _, ha⟩ := ha
  obtain ⟨name, res, rule, he, _, rfl⟩ := mem_publications.mp hp
  obtain ⟨r, hr, rfl⟩ := List.mem_map.mp (OrdSet.mem_ofList.mp ha)
  exact h (name, res) he r hr

variable [ComDatabase] [RegexBackend] {rules : List Rule}

/-- Matching the rules of a scope at a unit. -/
theorem matchScopeResults_sited (hset : MatchingRuleSet.new rules = .ok set) {scope : Scope}
    {addr : Address} (hunit : Unit scope addr L) (haddr : L addr) (hfs : fs.Within L)
    (hrun : set.matchScopeResults scope fs addr = .ok results) : Sited set Unit results := by
  obtain ⟨out, hfold, rfl⟩ := (matchScopeResults_ok hset).mp hrun
  refine (foldlM_inv (P := fun acc => acc.1.Within L ∧ Sited set Unit acc.2) hfold
    ⟨hfs, .empty⟩ ?_).2
  intro rule hrule acc acc' hacc hstep
  obtain ⟨_, rfl⟩ | ⟨_, full, hfull, rfl⟩ := matchRule_cases hstep
  · exact hacc
  · obtain ⟨hget, hscope⟩ := get_of_mem_rulesForScope hset hrule
    refine ⟨hacc.1.publish haddr, fun name res hres r hr => ?_⟩
    rw [IndexMap.get?_upsert] at hres
    split at hres
    · next hname =>
      obtain rfl := eq_of_beq hname
      obtain rfl := Option.some.inj hres
      refine hacc.2.append (fun r hr => ?_) r hr
      rw [List.mem_singleton.mp hr]
      exact ⟨rule, scope, L, hget, hscope, hunit, evaluate_within hacc.1 hfull, acc.1, hfull⟩
    · exact hacc.2 name res hres r hr

/-- The features of a unit with its matches, and its matches. -/
theorem promoted_sited (hset : MatchingRuleSet.new rules = .ok set) {scope : Scope}
    {addr : Address} (hunit : Unit scope addr L) (haddr : L addr) (hfs : fs.Within L)
    (hrun : set.matchScopeResults scope fs addr = .ok results) (order : IterOrder) :
    (promoteMatches set order fs results).Within L ∧ Sited set Unit results :=
  ⟨hfs.promoteMatches fun _ _ hres r hr => (matchScopeResults_addr hset hrun hres).2 r hr ▸ haddr,
    matchScopeResults_sited hset hunit haddr hfs hrun⟩

end

/-! ## Units -/

/-- The addresses of a unit: none, its own, those of its features and those of what is below. -/
def Mentions (addr : Address) (features : List Located) (below : Address → Prop)
    (a : Address) : Prop :=
  a = .noAddress ∨ a = addr ∨ (∃ e ∈ features, e.1 = a) ∨ below a

section

variable {addr : Address} {features : List CapaX.Located} {below : Address → Prop}

theorem mentions_noAddress : Mentions addr features below .noAddress := .inl rfl

theorem mentions_self : Mentions addr features below addr := .inr (.inl rfl)

theorem mentions_feature : ∀ e ∈ features, Mentions addr features below e.1 :=
  fun e he => .inr (.inr (.inl ⟨e, he, rfl⟩))

theorem mentions_below {a : Address} (h : below a) : Mentions addr features below a :=
  .inr (.inr (.inr h))

theorem FeatureSet.Within.mentions {fs : FeatureSet} (h : fs.Within below)
    {globals : List Feature} : (CapaX.seed fs features globals).Within
      (Mentions addr features below) :=
  (h.mono fun _ => mentions_below).seed mentions_feature mentions_noAddress

end

/-! ## The static driver -/

def instructionMentions (i : Address × InstructionFeatures) : Address → Prop :=
  Mentions i.1 i.2.features fun _ => False

def basicBlockMentions (b : Address × BasicBlockFeatures) : Address → Prop :=
  Mentions b.1 b.2.features fun a => ∃ i ∈ b.2.instructions.entries, instructionMentions i a

def functionMentions (f : Address × FunctionFeatures) : Address → Prop :=
  Mentions f.1 f.2.features fun a => ∃ b ∈ f.2.basicBlocks.entries, basicBlockMentions b a

/-- The units of a function: itself, its blocks and their instructions. -/
inductive CodeSite (f : Address × FunctionFeatures) : Scope → Address → (Address → Prop) → Prop
  | function : CodeSite f .function f.1 (functionMentions f)
  | basicBlock {b : Address × BasicBlockFeatures} (hb : b ∈ f.2.basicBlocks.entries) :
      CodeSite f .basicBlock b.1 (basicBlockMentions b)
  | instruction {b : Address × BasicBlockFeatures} {i : Address × InstructionFeatures}
      (hb : b ∈ f.2.basicBlocks.entries) (hi : i ∈ b.2.instructions.entries) :
      CodeSite f .instruction i.1 (instructionMentions i)

/-- The units of all functions. -/
def LowerSite (freeze : StaticFeatures) (scope : Scope) (a : Address) (L : Address → Prop) : Prop :=
  ∃ f ∈ freeze.functions.entries, CodeSite f scope a L

/-- The addresses the evidence of a file may have: of file features and of units in the file. -/
def fileMentions (freeze : StaticFeatures) : Address → Prop :=
  Mentions .noAddress freeze.fileFeatures fun a => ∃ scope L, LowerSite freeze scope a L

/-- The units of a static sample. The file is at no address. -/
inductive StaticSite (freeze : StaticFeatures) : Scope → Address → (Address → Prop) → Prop
  | file : StaticSite freeze .file .noAddress (fileMentions freeze)
  | lower {scope : Scope} {a : Address} {L : Address → Prop} (h : LowerSite freeze scope a L) :
      StaticSite freeze scope a L

section

variable [ComDatabase] [RegexBackend] {rules : List Rule} {set : MatchingRuleSet}
  {Unit : Scope → Address → (Address → Prop) → Prop} {globals : List Feature}

theorem findInstructionCapabilities_sited (hset : MatchingRuleSet.new rules = .ok set)
    {order : IterOrder} {i : Address × InstructionFeatures}
    (hunit : Unit .instruction i.1 (instructionMentions i)) {out : FeatureSet × MatchResults}
    (hrun : findInstructionCapabilities set order i.1 i.2 globals = .ok out) :
    out.1.Within (instructionMentions i) ∧ Sited set Unit out.2 := by
  obtain ⟨results, hmatch, hrun⟩ := bind_eq_ok.mp hrun
  obtain rfl := Except.ok.inj hrun
  exact promoted_sited hset hunit mentions_self FeatureSet.within_empty.mentions hmatch order

theorem findBasicBlockCapabilities_sited (hset : MatchingRuleSet.new rules = .ok set)
    {orders : BasicBlockOrders} {b : Address × BasicBlockFeatures}
    (hunit : Unit .basicBlock b.1 (basicBlockMentions b))
    (hinsns : ∀ i ∈ b.2.instructions.entries, Unit .instruction i.1 (instructionMentions i))
    {out : FeatureSet × MatchResults × MatchResults}
    (hrun : findBasicBlockCapabilities set orders b.1 b.2 globals = .ok out) :
    out.1.Within (basicBlockMentions b) ∧ Sited set Unit out.2.1 ∧ Sited set Unit out.2.2 := by
  obtain ⟨acc, hloop, hrun⟩ := bind_eq_ok.mp hrun
  obtain ⟨results, hmatch, hrun⟩ := bind_eq_ok.mp hrun
  obtain rfl := Except.ok.inj hrun
  have hacc : acc.1.Within (fun a => ∃ i ∈ b.2.instructions.entries, instructionMentions i a) ∧
      Sited set Unit acc.2 := by
    refine foldlM_inv (P := fun acc : FeatureSet × MatchResults =>
      acc.1.Within _ ∧ Sited set Unit acc.2) hloop ⟨FeatureSet.within_empty, .empty⟩ ?_
    intro i hi acc acc' hacc hvisit
    obtain ⟨found, hfind, hvisit⟩ := bind_eq_ok.mp hvisit
    obtain rfl := Except.ok.inj hvisit
    obtain ⟨hwithin, hsited⟩ := findInstructionCapabilities_sited hset (hinsns i hi) hfind
    exact ⟨hacc.1.mergeOwned (hwithin.mono fun a ha => ⟨i, hi, ha⟩), hacc.2.extend hsited⟩
  obtain ⟨hwithin, hsited⟩ := promoted_sited hset hunit mentions_self hacc.1.mentions hmatch
    orders.promote
  exact ⟨hwithin, hsited, hacc.2⟩

theorem findCodeCapabilities_sited (hset : MatchingRuleSet.new rules = .ok set)
    {orders : FunctionOrders} {f : Address × FunctionFeatures} {c : CodeCapabilities}
    (hrun : findCodeCapabilities set orders f.1 f.2 globals = .ok c) :
    Sited set (CodeSite f) c.functionMatches ∧ Sited set (CodeSite f) c.basicBlockMatches ∧
      Sited set (CodeSite f) c.instructionMatches := by
  obtain ⟨acc, hloop, hrun⟩ := bind_eq_ok.mp hrun
  obtain ⟨results, hmatch, hrun⟩ := bind_eq_ok.mp hrun
  obtain rfl := Except.ok.inj hrun
  have hacc : acc.1.Within (fun a => ∃ b ∈ f.2.basicBlocks.entries, basicBlockMentions b a) ∧
      Sited set (CodeSite f) acc.2.1 ∧ Sited set (CodeSite f) acc.2.2 := by
    refine foldlM_inv (P := fun acc : FeatureSet × MatchResults × MatchResults =>
      acc.1.Within _ ∧ Sited set (CodeSite f) acc.2.1 ∧ Sited set (CodeSite f) acc.2.2) hloop
      ⟨FeatureSet.within_empty, .empty, .empty⟩ ?_
    intro b hb acc acc' hacc hvisit
    obtain ⟨found, hfind, hvisit⟩ := bind_eq_ok.mp hvisit
    obtain rfl := Except.ok.inj hvisit
    obtain ⟨hwithin, hbb, hinsn⟩ := findBasicBlockCapabilities_sited hset
      (CodeSite.basicBlock hb) (fun i hi => CodeSite.instruction hb hi) hfind
    exact ⟨hacc.1.mergeOwned (hwithin.mono fun a ha => ⟨b, hb, ha⟩), hacc.2.1.extend hbb,
      hacc.2.2.extend hinsn⟩
  exact ⟨matchScopeResults_sited hset .function mentions_self hacc.1.mentions hmatch, hacc.2⟩

structure CodeMatches.Sited (set : MatchingRuleSet)
    (Unit : Scope → Address → (Address → Prop) → Prop) (all : CodeMatches) : Prop where
  function : CapaX.Sited set Unit all.function
  basicBlock : CapaX.Sited set Unit all.basicBlock
  instruction : CapaX.Sited set Unit all.instruction

omit [ComDatabase] in
theorem joinFunction_sited {orders : StaticOrders} {l : List (Address × CodeCapabilities)}
    (hl : ∀ e ∈ l, CapaX.Sited set Unit e.2.functionMatches ∧
      CapaX.Sited set Unit e.2.basicBlockMatches ∧ CapaX.Sited set Unit e.2.instructionMatches)
    {acc : CodeMatches} (hacc : acc.Sited set Unit) :
    (l.foldl (joinFunction orders) acc).Sited set Unit := by
  induction l generalizing acc with
  | nil => exact hacc
  | cons e l ih =>
    obtain ⟨hf, hb, hi⟩ := hl e List.mem_cons_self
    exact ih (fun x hx => hl x (List.mem_cons_of_mem _ hx))
      ⟨hacc.function.extend hf, hacc.basicBlock.extend hb, hacc.instruction.extend hi⟩

omit [ComDatabase] in
/-- The file is handed the file features and the addresses of matches. -/
theorem fileInput_within {freeze : StaticFeatures} (orders : StaticOrders) {all : CodeMatches}
    (hall : all.Sited set (LowerSite freeze)) :
    ((seedFile freeze.fileFeatures freeze.globalFeatures).merge
      (functionAndLowerFeatures set orders all)).Within (fileMentions freeze) := by
  refine (FeatureSet.within_seedFile mentions_feature mentions_noAddress).merge
    (within_publishMatches fun e he r hr => ?_)
  obtain ⟨name, res⟩ := e
  obtain hres | hres | hres := mem_lowerEntries.mp he
  · obtain ⟨_, scope, L, _, _, hsite, _⟩ := hall.instruction name res hres r hr
    exact mentions_below ⟨scope, L, hsite⟩
  · obtain ⟨_, scope, L, _, _, hsite, _⟩ := hall.basicBlock name res hres r hr
    exact mentions_below ⟨scope, L, hsite⟩
  · obtain ⟨_, scope, L, _, _, hsite, _⟩ := hall.function name res hres r hr
    exact mentions_below ⟨scope, L, hsite⟩

theorem sited_of_static (hset : MatchingRuleSet.new rules = .ok set)
    {freeze : StaticFeatures} {orders : StaticOrders} {caps : StaticCapabilities}
    (hrun : findStaticCapabilities set freeze orders = .ok caps) :
    Sited set (StaticSite freeze) caps.results := by
  obtain ⟨cs, results, hcs, hmatch, hresults⟩ := findStaticCapabilities_ok hrun
  rw [hresults]
  have hcode := mem_zip_of_forall₂ (f := fun e : Address × FunctionFeatures => e.1) hcs
  have hstart : CodeMatches.Sited set (LowerSite freeze) ⟨∅, ∅, ∅⟩ := ⟨.empty, .empty, .empty⟩
  have hall : ((((freeze.functions.entries.map fun e => e.1).zip cs).foldl (joinFunction orders)
      ⟨∅, ∅, ∅⟩).Sited set (LowerSite freeze)) := joinFunction_sited (fun e he => by
    obtain ⟨f, hf, hc⟩ := hcode e he
    obtain ⟨hfunction, hbb, hinsn⟩ := findCodeCapabilities_sited hset hc
    have hin : ∀ scope a L, CodeSite f scope a L → LowerSite freeze scope a L :=
      fun _ _ _ h => ⟨f, hf, h⟩
    exact ⟨hfunction.mono hin, hbb.mono hin, hinsn.mono hin⟩)
    hstart
  have hin : ∀ scope a L, LowerSite freeze scope a L → StaticSite freeze scope a L :=
    fun _ _ _ h => .lower h
  have hfiles := matchScopeResults_sited hset StaticSite.file mentions_self
    (fileInput_within orders hall) hmatch
  exact (((Sited.empty.extend (hall.instruction.mono hin)).extend
    (hall.basicBlock.mono hin)).extend (hall.function.mono hin)).extend hfiles

/-- A match of a run is at a unit of the sample, of a scope its rule has, and its evidence points
    into that unit. -/
theorem findStaticCapabilities_sited (hset : MatchingRuleSet.new rules = .ok set)
    (freeze : StaticFeatures) (orders : StaticOrders) (caps : StaticCapabilities)
    (hrun : findStaticCapabilities set freeze orders = .ok caps) {name : String}
    {res : List (Address × MatchResult)} (hres : caps.results.get? name = some res) :
    ∀ r ∈ res, ∃ rule scope L, set.get name = some rule ∧ rule.scopes.contains scope = true ∧
      StaticSite freeze scope r.1 L ∧ ∀ t ∈ r.2.nodes, ∀ a ∈ t.locations, L a := by
  intro r hr
  obtain ⟨rule, scope, L, hget, hscope, hsite, hwithin, _⟩ :=
    sited_of_static hset hrun name res hres r hr
  exact ⟨rule, scope, L, hget, hscope, hsite, hwithin⟩

end

theorem findStaticCapabilities_sited_nestedSubscopes :
    ∃ set caps, @MatchingRuleSet.new .empty nestedSubscopes = .ok set ∧
      @findStaticCapabilities .empty set copyingSample .insertion = .ok caps ∧
      ∃ res, caps.results.get? "a" = some res ∧ res ≠ [] ∧ ∀ r ∈ res, ∃ rule scope L,
        set.get "a" = some rule ∧ rule.scopes.contains scope = true ∧
        StaticSite copyingSample scope r.1 L ∧ ∀ t ∈ r.2.nodes, ∀ a ∈ t.locations, L a := by
  refine ⟨_, _, rfl, rfl, _, rfl, by simp, ?_⟩
  exact @findStaticCapabilities_sited .empty .empty nestedSubscopes _ rfl copyingSample .insertion
    _ rfl "a" _ rfl

end CapaX
