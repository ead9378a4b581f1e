import CapaX.ResultDocument.DynamicTracing
import CapaX.ResultDocument.Lookups
import CapaX.ResultDocument.RuleMetadata

/-
  The capabilities of the default report (`render/default.rs`, `render/utils.rs`). A rule that
  another rule's evidence names is not shown on its own. What hides a rule is a capability itself,
  so there is the question whether anything is left: `defaultReport_complete` says that every
  capability is shown or named, over some rules, by one that is. Nothing is asked of the sample;
  what is asked of the rules is that no body asks for a value that is a rule name and a namespace
  (`wrapped_hidden`).
-/

namespace CapaX

open Collections Control Graphs Relation

namespace ResultDocument

/-! ## The report -/

/-- The order of namespaces, then of names. -/
def sortsBefore (a b : RuleMatches) : Bool :=
  let namespaceOf (r : RuleMatches) := r.rule.namespace_.getD ""
  decide (namespaceOf a < namespaceOf b ∨
    namespaceOf a = namespaceOf b ∧ a.rule.name ≤ b.rule.name)

def sortRules (doc : OrdMap String RuleMatches) : List RuleMatches :=
  (doc.entries.map (·.2)).mergeSort sortsBefore

/-- The condition of `capability_rules` on one rule. -/
def isCapability (rule : Rule) : Bool :=
  let maec := maecMetadata rule
  !rule.meta.lib && !startsWith "internal/" (rule.namespace_.getD "") && !rule.isSubscopeRule &&
    maec.analysisConclusion.isNone && maec.analysisConclusionOv.isNone &&
    maec.malwareFamily.isNone && maec.malwareCategory.isNone && maec.malwareCategoryOv.isNone

def capabilityRules (doc : OrdMap String RuleMatches) : List RuleMatches :=
  (sortRules doc).filter fun r => isCapability r.rule

mutual

/-- The recursion of `find_subrule_matches`. -/
def collectSubrules : Match → OrdSet String → OrdSet String
  | ⟨success, node, children, _, _⟩, out =>
    if success then
      match node with
      | .statement _ => collectSubruleChildren children out
      | .feature ⟨.matchedRule name, _⟩ => out.insert name
      | .feature _ => out
    else out

def collectSubruleChildren : List Match → OrdSet String → OrdSet String
  | [], out => out
  | child :: rest, out => collectSubruleChildren rest (collectSubrules child out)

end

def findSubruleMatches (doc : OrdMap String RuleMatches) : OrdSet String :=
  (capabilityRules doc).foldl (fun out r =>
    r.matches_.foldl (fun out m => collectSubrules m.2 out) out) ∅

/-- The rules the report has a row for. -/
def shownRules (doc : OrdMap String RuleMatches) : List RuleMatches :=
  (capabilityRules doc).filter fun r => decide (r.rule.name ∉ findSubruleMatches doc)

def capabilityRow (r : RuleMatches) : String × String :=
  let count := r.matches_.length
  (if count = 1 then r.rule.name else r.rule.name ++ " (" ++ toString count ++ " matches)",
    r.rule.namespace_.getD "")

/-- `{:<width}` -/
def padRight (width : Nat) (s : String) : String :=
  s ++ String.ofList (List.replicate (width - s.length) ' ')

def renderCapabilities (doc : OrdMap String RuleMatches) : String :=
  let rows := (shownRules doc).map capabilityRow
  if rows.isEmpty then "\nno capabilities found\n"
  else "\n" ++ padRight 56 "CAPABILITY" ++ "NAMESPACE\n" ++
    String.join (rows.map fun row => padRight 56 row.1 ++ row.2 ++ "\n")

/-! ## The names in a rendered tree -/

/-- The tree names the rule: at a successful match leaf, below successful statements only. -/
inductive Names (name : String) : Match → Prop
  | leaf {d : Option String} {children : List Match} {locations : List Address}
      {captures : OrdMap String (List Address)} :
      Names name ⟨true, .feature ⟨.matchedRule name, d⟩, children, locations, captures⟩
  | child {s : Statement} {children : List Match} {locations : List Address}
      {captures : OrdMap String (List Address)} {c : Match} (hc : c ∈ children) (h : Names name c) :
      Names name ⟨true, .statement s, children, locations, captures⟩

/-- What holds of a rendered tree when it holds of its children holds of every tree. -/
@[elab_as_elim]
theorem Match.induct {P : Match → Prop} (h : ∀ m, (∀ c ∈ m.children, P c) → P m) (m : Match) :
    P m :=
  @Match.rec P (fun cs => ∀ c ∈ cs, P c) (fun _ _ _ _ _ ih => h _ ih)
    (fun _ h => absurd h List.not_mem_nil)
    (fun _ _ ihc ihcs _ h => (List.mem_cons.mp h).elim (fun e => e ▸ ihc) (ihcs _)) m

theorem mem_collectSubrules {name : String} {m : Match} {out : OrdSet String} :
    name ∈ collectSubrules m out ↔ name ∈ out ∨ Names name m := by
  induction m using Match.induct generalizing out with
  | h m ih =>
    obtain ⟨success, node, children, locations, captures⟩ := m
    have hchildren : ∀ (cs : List Match) (out : OrdSet String), (∀ c ∈ cs, c ∈ children) →
        (name ∈ collectSubruleChildren cs out ↔ name ∈ out ∨ ∃ c ∈ cs, Names name c) := by
      intro cs
      induction cs with
      | nil => simp [collectSubruleChildren]
      | cons c cs ihs =>
        intro out hcs
        rw [collectSubruleChildren, ihs _ fun x hx => hcs x (List.mem_cons_of_mem _ hx),
          ih c (hcs c List.mem_cons_self), List.exists_mem_cons_iff, or_assoc]
    cases success with
    | false =>
      have hout : collectSubrules ⟨false, node, children, locations, captures⟩ out = out := by
        unfold collectSubrules
        rfl
      rw [hout]
      refine (or_iff_left fun h => ?_).symm
      cases h
    | true =>
      cases node with
      | statement s =>
        rw [collectSubrules, if_pos rfl]
        refine (hchildren children out fun c hc => hc).trans (or_congr_right ⟨?_, ?_⟩)
        · intro h
          obtain ⟨c, hc, hnames⟩ := h
          exact .child hc hnames
        · intro h
          cases h with
          | child hc hnames => exact ⟨_, hc, hnames⟩
      | feature f =>
        obtain ⟨f, d⟩ := f
        cases f with
        | matchedRule v =>
          rw [collectSubrules, if_pos rfl, OrdSet.mem_insert, or_comm]
          refine or_congr_right ⟨?_, ?_⟩
          · intro h
            rw [h]
            exact .leaf
          · intro h
            cases h
            rfl
        | _ =>
          refine (or_iff_left fun h => ?_).symm
          cases h

/-! ## Where the names come from -/

section

variable {set : MatchingRuleSet} {results : MatchResults}

/-- A name in a rendered tree is that of a match leaf the recursion comes to. -/
theorem leaf_of_names {depth : Nat} {t : MatchResult} {m : Match}
    (h : buildMatch set results depth t = .ok m) {name : String} (hnames : Names name m) :
    ∃ s, ReflTransGen (Calls set results) t s ∧ matchLeaf s = some name := by
  induction hnames generalizing depth t with
  | leaf =>
    cases depth with
    | zero => cases h
    | succ depth => exact ⟨t, .refl, matchLeaf_of_built h rfl rfl⟩
  | child hc _ ih =>
    cases depth with
    | zero => cases h
    | succ depth =>
      obtain ⟨b, hcall, hbuilt⟩ := (buildMatch_ok h).2.2 _ hc
      obtain ⟨s, hreach, hleaf⟩ := ih hbuilt
      exact ⟨s, .head hcall hreach, hleaf⟩

end

/-! ## The rules of a document -/

section

variable {set : MatchingRuleSet} {results : MatchResults} {order : IterOrder} {depth : Nat}
  {doc : OrdMap String RuleMatches} {name : String}

theorem mem_capabilityRules {rm : RuleMatches} :
    rm ∈ capabilityRules doc ↔ (∃ name, doc.get? name = some rm) ∧ isCapability rm.rule = true := by
  unfold capabilityRules sortRules
  rw [List.mem_filter, List.mem_mergeSort, List.mem_map]
  refine and_congr_left fun _ => ⟨?_, ?_⟩
  · intro ⟨e, he, hrm⟩
    exact ⟨e.1, hrm ▸ OrdMap.mem_entries_iff.mp he⟩
  · intro ⟨name, hget⟩
    exact ⟨(name, rm), OrdMap.mem_entries_iff.mpr hget, rfl⟩

theorem mem_findSubruleMatches :
    name ∈ findSubruleMatches doc ↔
      ∃ rm ∈ capabilityRules doc, ∃ x ∈ rm.matches_, Names name x.2 := by
  have hturn : ∀ (rm : RuleMatches) (out : OrdSet String),
      name ∈ rm.matches_.foldl (fun out m => collectSubrules m.2 out) out ↔
        name ∈ out ∨ ∃ x ∈ rm.matches_, Names name x.2 :=
    fun rm => OrdSet.mem_foldl fun m _ out => mem_collectSubrules
  refine (OrdSet.mem_foldl (fun rm _ => hturn rm) ∅).trans ?_
  exact or_iff_right (OrdSet.not_mem_empty name)

end

/-! ## What is hidden -/

/-- A capability of the document names the rule in its evidence. -/
def Hides (doc : OrdMap String RuleMatches) (a b : String) : Prop :=
  ∃ rm, doc.get? a = some rm ∧ isCapability rm.rule = true ∧ ∃ x ∈ rm.matches_, Names b x.2

/-- The report has a row for the rule. -/
def Shown (doc : OrdMap String RuleMatches) (name : String) : Prop :=
  ∃ rm ∈ shownRules doc, rm.rule.name = name

theorem renderCapabilities_none {doc : OrdMap String RuleMatches} :
    renderCapabilities doc = "\nno capabilities found\n" ↔ shownRules doc = [] := by
  unfold renderCapabilities
  cases shownRules doc with
  | nil => exact iff_of_true rfl rfl
  | cons r rs =>
    refine iff_of_false (fun h => ?_) (List.cons_ne_nil r rs)
    have hsecond := congrArg (fun text : String => text.toList[1]?) h
    simp [padRight] at hsecond

/-- The matches of a run of either driver. -/
inductive Ran [RegexBackend] (set : MatchingRuleSet) : MatchResults → Prop
  | static {freeze : StaticFeatures} {orders : StaticOrders} {caps : StaticCapabilities}
      (h : findStaticCapabilities set freeze orders = .ok caps) : Ran set caps.results
  | dynamic {freeze : DynamicFeatures} {orders : DynamicOrders} {caps : DynamicCapabilities}
      (h : findDynamicCapabilities set freeze orders = .ok caps) : Ran set caps.results

section

variable [ComDatabase] [RegexBackend] {rules es : List Rule} {results : MatchResults}
  {order : List String}

/-- A match leaf of recorded evidence has a value the body of its rule asks for. -/
theorem observed_of_inTree {set : MatchingRuleSet} (hset : MatchingRuleSet.new rules = .ok set)
    (hran : Ran set results) {name v : String} {t : MatchResult} (hin : InTree results name t)
    (hleaf : matchLeaf t = some v) : ∃ rule, set.get name = some rule ∧ v ∈ rule.body.observed := by
  obtain ⟨res, hres, r, hr, ht⟩ := hin
  obtain ⟨rule, hget, fs, heval⟩ : ∃ rule, set.get name = some rule ∧
      ∃ fs, evaluate fs false rule.body = .ok r.2 := by
    cases hran with
    | static h =>
      obtain ⟨rule, _, _, hget, _, _, _, heval⟩ := sited_of_static hset h name res hres r hr
      exact ⟨rule, hget, heval⟩
    | dynamic h =>
      obtain ⟨rule, _, _, hget, _, _, _, heval⟩ := sited_of_dynamic hset h name res hres r hr
      exact ⟨rule, hget, heval⟩
  exact ⟨rule, hget, (evaluate_evidence heval t ht).observed v (matchLeaf_eq_some.mp hleaf).2⟩

/-- What a leaf of a rule's evidence stands for, stands lower than the rule. -/
theorem leaf_stands (ha : RuleSet.Accepts rules) (hes : expandAndExtract rules = .ok es)
    (hset : MatchingRuleSet.new rules = .ok (.ofExpanded es)) (hn : (es.map (·.name)).Nodup)
    (hapart : ∀ e ∈ es, ∀ v ∈ e.body.observed, ¬ Clashes es v)
    (horder : ∀ r ∈ rules, ∀ d ∈ getDependencies r.body (indexRulesByNamespace rules),
      order.idxOf d < order.idxOf r.name) (hran : Ran (.ofExpanded es) results)
    {name v target : String} {t : MatchResult} (hin : InTree results name t)
    (hleaf : matchLeaf t = some v) (htarget : Target (.ofExpanded es) v target) {at_ : Nat × Nat}
    (hs : Stands rules es order name at_) :
    ∃ at', Stands rules es order target at' ∧ Prod.Lex (· < ·) (· < ·) at' at_ := by
  obtain ⟨rule, hget, hv⟩ := observed_of_inTree hset hran hin hleaf
  obtain ⟨hrule, hname⟩ := indexByName_some hget
  rw [← hname] at hs
  exact htarget.stands ha hes horder hrule (not_shared hn) hv (hapart rule hrule v hv) hs

/-- What the recursion comes to from a rule's evidence is evidence of that rule or of one that
    stands lower. -/
theorem reached_stands (ha : RuleSet.Accepts rules) (hes : expandAndExtract rules = .ok es)
    (hset : MatchingRuleSet.new rules = .ok (.ofExpanded es)) (hn : (es.map (·.name)).Nodup)
    (hapart : ∀ e ∈ es, ∀ v ∈ e.body.observed, ¬ Clashes es v)
    (horder : ∀ r ∈ rules, ∀ d ∈ getDependencies r.body (indexRulesByNamespace rules),
      order.idxOf d < order.idxOf r.name) (hran : Ran (.ofExpanded es) results)
    {name : String} {m t : MatchResult} (hin : InTree results name m)
    (hreach : ReflTransGen (Calls (.ofExpanded es) results) m t) {at_ : Nat × Nat}
    (hs : Stands rules es order name at_) :
    ∃ name' at', InTree results name' t ∧ Stands rules es order name' at' ∧
      (at' = at_ ∨ Prod.Lex (· < ·) (· < ·) at' at_) := by
  induction hreach with
  | refl => exact ⟨name, at_, hin, hs, .inl rfl⟩
  | tail _ hcall ih =>
    obtain ⟨name1, at1, hin1, hs1, hle⟩ := ih
    obtain ⟨name2, hin2, ⟨rfl, _⟩ | ⟨v, hv, htarget⟩⟩ := inTree_of_call hin1 hcall
    · exact ⟨_, at1, hin2, hs1, hle⟩
    · obtain ⟨at2, hs2, hlt⟩ := leaf_stands ha hes hset hn hapart horder hran hin1 hv htarget hs1
      refine ⟨name2, at2, hin2, hs2, .inr ?_⟩
      obtain rfl | hle := hle
      · exact hlt
      · exact Trans.trans hlt hle

variable {doc : OrdMap String RuleMatches} {depth : Nat} {iteration : IterOrder}

/-- A capability stands higher than the rules it hides. -/
theorem Hides.stands (ha : RuleSet.Accepts rules) (hes : expandAndExtract rules = .ok es)
    (hset : MatchingRuleSet.new rules = .ok (.ofExpanded es)) (hn : (es.map (·.name)).Nodup)
    (hapart : ∀ e ∈ es, ∀ v ∈ e.body.observed, ¬ Clashes es v)
    (horder : ∀ r ∈ rules, ∀ d ∈ getDependencies r.body (indexRulesByNamespace rules),
      order.idxOf d < order.idxOf r.name) (hran : Ran (.ofExpanded es) results)
    (hdoc : buildResultDocument (.ofExpanded es) results iteration depth = .ok doc)
    {a b : String} (h : Hides doc a b)
    (hb : ((MatchingRuleSet.ofExpanded es).get b).isSome = true) {at_ : Nat × Nat}
    (hs : Stands rules es order a at_) :
    ∃ at', Stands rules es order b at' ∧ Prod.Lex (· < ·) (· < ·) at' at_ := by
  obtain ⟨rm, hget, _, x, hx, hnames⟩ := h
  obtain ⟨res, hres, _, _, hrendered⟩ := rule_of_document hdoc hget
  obtain ⟨r, hr, hbuild⟩ := exists_of_mem_renderMatches hrendered hx
  obtain ⟨s, hreach, hleaf⟩ := leaf_of_names hbuild hnames
  obtain ⟨name1, at1, hin1, hs1, hle⟩ := reached_stands ha hes hset hn hapart horder hran
    ⟨res, hres, r, hr, MatchResult.self_mem_nodes _⟩ hreach hs
  obtain ⟨at2, hs2, hlt⟩ := leaf_stands ha hes hset hn hapart horder hran hin1 hleaf
    (.inl ⟨hb, rfl⟩) hs1
  refine ⟨at2, hs2, ?_⟩
  obtain rfl | hle := hle
  · exact hlt
  · exact Trans.trans hlt hle

omit [RegexBackend] in
/-- Every rule of the set stands somewhere. -/
theorem exists_stands (hes : expandAndExtract rules = .ok es) {name : String}
    (h : ((MatchingRuleSet.ofExpanded es).get name).isSome = true) :
    ∃ at_, Stands rules es order name at_ := by
  obtain ⟨rule, hget⟩ := Option.isSome_iff_exists.mp h
  obtain ⟨hrule, hname⟩ := indexByName_some hget
  obtain ⟨r, hr, hf⟩ := ((expandAndExtract_spec hes).1 rule).mp hrule
  obtain ⟨g, hg, hd⟩ := hr.origin
  exact ⟨_, g, hg, r, hd, rule, hrule, hf, hname, rfl⟩

/-- From every rule of the document chains of capabilities that hide go up to one that nothing
    hides. -/
theorem hides_ends (ha : RuleSet.Accepts rules) (hes : expandAndExtract rules = .ok es)
    (hset : MatchingRuleSet.new rules = .ok (.ofExpanded es)) (hn : (es.map (·.name)).Nodup)
    (hapart : ∀ e ∈ es, ∀ v ∈ e.body.observed, ¬ Clashes es v) (hran : Ran (.ofExpanded es) results)
    (hdoc : buildResultDocument (.ofExpanded es) results iteration depth = .ok doc)
    {name : String} (hname : (doc.get? name).isSome = true) :
    Acc (fun a b => Hides doc a b) name := by
  obtain ⟨order, _, horder⟩ := ha.ordered
  let s : Set String := {name | (doc.get? name).isSome = true}
  have hfinite : s.Finite :=
    (List.finite_toSet doc.keys).subset fun name h => OrdMap.mem_keys_iff.mpr h
  have hclosed : ∀ b ∈ s, ∀ a, Hides doc a b → a ∈ s := by
    intro b _ a hides
    obtain ⟨rm, hget, _⟩ := hides
    exact Option.isSome_iff_exists.mpr ⟨rm, hget⟩
  have hin : ∀ name ∈ s, ((MatchingRuleSet.ofExpanded es).get name).isSome = true := by
    intro name h
    obtain ⟨rm, hget⟩ := Option.isSome_iff_exists.mp h
    obtain ⟨_, _, hrule, _⟩ := rule_of_document hdoc hget
    exact Option.isSome_iff_exists.mpr ⟨_, hrule⟩
  -- going up a chain raises where a rule stands
  have hpath : ∀ b ∈ s, ∀ a, TransGen (fun b a => Hides doc a b) b a → a ∈ s ∧
      ∀ at_, Stands rules es order a at_ →
        ∃ at', Stands rules es order b at' ∧ Prod.Lex (· < ·) (· < ·) at' at_ := by
    intro b hb a hba
    induction hba with
    | single hides =>
      exact ⟨hclosed b hb _ hides, fun at_ hs =>
        hides.stands ha hes hset hn hapart horder hran hdoc (hin b hb) hs⟩
    | tail _ hides ih =>
      obtain ⟨hc, hup⟩ := ih
      refine ⟨hclosed _ hc _ hides, fun at_ hs => ?_⟩
      obtain ⟨at1, hs1, hlt1⟩ :=
        hides.stands ha hes hset hn hapart horder hran hdoc (hin _ hc) hs
      obtain ⟨at2, hs2, hlt2⟩ := hup at1 hs1
      exact ⟨at2, hs2, Trans.trans hlt2 hlt1⟩
  have hacyclic : ∀ b ∈ s, ¬ TransGen (fun b a => Hides doc a b) b b := by
    intro b hb hcycle
    have hwf : WellFounded (Prod.Lex (· < ·) (· < ·) : Nat × Nat → Nat × Nat → Prop) :=
      WellFounded.prod_lex Nat.lt_wfRel.wf Nat.lt_wfRel.wf
    have hnone : ∀ at_, ¬ Stands rules es order b at_ := by
      intro at_
      induction at_ using hwf.induction with
      | _ at_ ih =>
        intro hs
        obtain ⟨at', hs', hlt⟩ := (hpath b hb b hcycle).2 at_ hs
        exact ih at' hlt hs'
    obtain ⟨at_, hs⟩ : ∃ at_, Stands rules es order b at_ := exists_stands hes (hin b hb)
    exact hnone at_ hs
  exact acc_of_acyclic hfinite hclosed hacyclic hname

omit [ComDatabase] [RegexBackend] in
/-- A capability of the document that nothing hides has a row. -/
theorem shown_of_not_hidden (hdoc : buildResultDocument (.ofExpanded es) results iteration depth =
    .ok doc) {name : String} {rm : RuleMatches} (hget : doc.get? name = some rm)
    (hcap : isCapability rm.rule = true) (hnone : ∀ a, ¬ Hides doc a name) : Shown doc name := by
  obtain ⟨_, _, hrule, _⟩ := rule_of_document hdoc hget
  have hname : rm.rule.name = name := (indexByName_some hrule).2
  refine ⟨rm, List.mem_filter.mpr ⟨mem_capabilityRules.mpr ⟨⟨name, hget⟩, hcap⟩, ?_⟩, hname⟩
  rw [decide_eq_true_eq, mem_findSubruleMatches, hname]
  intro ⟨rm', hrm', hnames⟩
  obtain ⟨⟨a, ha⟩, hcap'⟩ := mem_capabilityRules.mp hrm'
  exact hnone a ⟨rm', ha, hcap', hnames⟩

/-- With distinct expanded names, where no body asks for a value that is a rule name and a
    namespace: the report of a run finds no capabilities exactly when none is recorded, and every
    capability is shown or hidden, over some capabilities, by one that is shown. -/
theorem defaultReport_complete {set : MatchingRuleSet} (hset : MatchingRuleSet.new rules = .ok set)
    (hes : expandAndExtract rules = .ok es) (hn : (es.map (·.name)).Nodup)
    (hapart : ∀ e ∈ es, ∀ v ∈ e.body.observed, ¬ Clashes es v) (hran : Ran set results)
    (hdoc : buildResultDocument set results iteration depth = .ok doc) :
    (renderCapabilities doc = "\nno capabilities found\n" ↔
      ∀ name rule, (results.get? name).isSome = true → set.get name = some rule →
        isCapability rule = false) ∧
      ∀ name rule, (results.get? name).isSome = true → set.get name = some rule →
        isCapability rule = true → ∃ top, Shown doc top ∧ ReflTransGen (Hides doc) top name := by
  obtain ⟨ha, es0, hes0, rfl⟩ := MatchingRuleSet.new_ok hset
  obtain rfl : es0 = es := Except.ok.inj (hes0.symm.trans hes)
  have htop : ∀ name rule, (results.get? name).isSome = true →
      (MatchingRuleSet.ofExpanded es0).get name = some rule → isCapability rule = true →
        ∃ top, Shown doc top ∧ ReflTransGen (Hides doc) top name := by
    intro name rule hsome hget hcap
    obtain ⟨res, hres⟩ := Option.isSome_iff_exists.mp hsome
    have hsub : rule.isSubscopeRule = false := by
      unfold isCapability at hcap
      simp only [Bool.and_eq_true, Bool.not_eq_true'] at hcap
      exact hcap.1.1.1.1.1.2
    obtain ⟨rm, hrm⟩ := mem_document hdoc hres hget hsub
    have hacc := hides_ends ha hes hset hn hapart hran hdoc
      (Option.isSome_iff_exists.mpr ⟨rm, hrm⟩)
    obtain ⟨top, hreach, hlast⟩ := exists_end hacc
    refine ⟨top, ?_, reflTransGen_swap.mp hreach⟩
    obtain rfl | ⟨b, _, rm', hget', hcap', _⟩ := ReflTransGen.cases_tail hreach
    · obtain ⟨_, _, hrule, _⟩ := rule_of_document hdoc hrm
      obtain rfl := Option.some.inj (hget.symm.trans hrule)
      exact shown_of_not_hidden hdoc hrm hcap hlast
    · exact shown_of_not_hidden hdoc hget' hcap' hlast
  refine ⟨renderCapabilities_none.trans ⟨fun hnone name rule hsome hget => ?_, fun h => ?_⟩, htop⟩
  · by_contra hcap
    obtain ⟨top, ⟨rm, hrm, _⟩, _⟩ := htop name rule hsome hget (Bool.not_eq_false _ ▸ hcap)
    rw [hnone] at hrm
    exact List.not_mem_nil hrm
  · refine List.eq_nil_iff_forall_not_mem.mpr fun rm hrm => ?_
    obtain ⟨⟨name, hget⟩, hcap⟩ := mem_capabilityRules.mp (List.mem_filter.mp hrm).1
    obtain ⟨res, hres, hrule, _⟩ := rule_of_document hdoc hget
    have hfalse := h name rm.rule (by rw [hres]; rfl) hrule
    rw [hcap] at hfalse
    cases hfalse

end

/-- `download` asks for `connect`. -/
def connectAndDownload : List Rule :=
  [.minimal "connect" (some "network") ⟨none, some .call⟩ ⟨.leaf (.api "CreateFile"), none⟩,
    .minimal "download" none ⟨none, some .call⟩ ⟨.leaf (.matchedRule "connect"), none⟩]

theorem defaultReport_complete_connectAndDownload :
    ∃ set es caps doc, @MatchingRuleSet.new .empty connectAndDownload = .ok set ∧
      @expandAndExtract .empty connectAndDownload = .ok es ∧
      @findDynamicCapabilities .empty set writingProcess .insertion = .ok caps ∧
      buildResultDocument set caps.results .insertion 3 = .ok doc ∧
      ((renderCapabilities doc = "\nno capabilities found\n" ↔
        ∀ name rule, (caps.results.get? name).isSome = true → set.get name = some rule →
          isCapability rule = false) ∧
        ∀ name rule, (caps.results.get? name).isSome = true → set.get name = some rule →
          isCapability rule = true → ∃ top, Shown doc top ∧ ReflTransGen (Hides doc) top name) := by
  refine ⟨_, _, _, _, rfl, rfl, rfl, rfl, ?_⟩
  exact @defaultReport_complete .empty .empty connectAndDownload _ _ _ 3 .insertion _ rfl rfl
    (by decide) (by unfold Clashes; decide) (@Ran.dynamic .empty _ writingProcess .insertion _ rfl)
    rfl

/-- `open` asks for the namespace `internal/file`, and the rule of that name for `open`. -/
def wrapped : List Rule :=
  [.minimal "create" (some "internal/file") ⟨none, some .call⟩ ⟨.leaf (.api "CreateFile"), none⟩,
    .minimal "open" none ⟨none, some .call⟩
      ⟨.or [⟨.leaf (.matchedRule "internal/file"), none⟩, ⟨.leaf (.api "WriteFile"), none⟩], none⟩,
    .minimal "internal/file" none ⟨none, some .call⟩
      ⟨.and [⟨.leaf (.matchedRule "open"), none⟩, ⟨.leaf (.api "WriteFile"), none⟩], none⟩]

/-- Two capabilities are recorded, and the report finds none: each hides the other, one of them by
    way of the namespace. -/
theorem wrapped_hidden :
    ∃ set caps doc, @MatchingRuleSet.new .empty wrapped = .ok set ∧
      @findDynamicCapabilities .empty set writingProcess .insertion = .ok caps ∧
      buildResultDocument set caps.results .insertion 5 = .ok doc ∧
      (∀ name ∈ ["open", "internal/file"], ∃ rm, doc.get? name = some rm ∧
        isCapability rm.rule = true) ∧
      renderCapabilities doc = "\nno capabilities found\n" := by
  refine ⟨_, _, _, rfl, rfl, rfl, fun name hname => ?_, renderCapabilities_none.mpr ?_⟩
  · obtain rfl | hname := List.mem_cons.mp hname
    · exact ⟨_, rfl, by decide⟩
    · obtain rfl := List.mem_singleton.mp hname
      exact ⟨_, rfl, by decide⟩
  · refine List.filter_eq_nil_iff.mpr fun rm hrm => ?_
    rw [decide_eq_true_eq, not_not]
    obtain ⟨⟨name, hget⟩, hcap⟩ := mem_capabilityRules.mp hrm
    obtain h | h := List.mem_cons.mp (OrdMap.mem_entries_iff.mpr hget)
    · obtain ⟨rfl, rfl⟩ := Prod.mk.inj h
      cases hcap
    · obtain h | h := List.mem_cons.mp h
      · obtain ⟨rfl, rfl⟩ := Prod.mk.inj h
        exact mem_findSubruleMatches.mpr ⟨_, mem_capabilityRules.mpr ⟨⟨"open", rfl⟩, by decide⟩, _,
          List.mem_cons_self, .child List.mem_cons_self .leaf⟩
      · obtain ⟨rfl, rfl⟩ := Prod.mk.inj (List.mem_singleton.mp h)
        exact mem_findSubruleMatches.mpr ⟨_,
          mem_capabilityRules.mpr ⟨⟨"internal/file", rfl⟩, by decide⟩, _, List.mem_cons_self,
          .child List.mem_cons_self .leaf⟩

end ResultDocument

end CapaX
