import CapaX.ResultDocument.Layout
import CapaX.ResultDocument.Splicing

/-
  What a result document depends on. The recorded matches are only ever looked up by the name of a
  rule, and what is built of them is kept in sorted maps and sets: two maps of matches with the same
  lookups give the same document and the same layouts, in whatever order they are walked.
-/

namespace CapaX

open Collections Control

namespace ResultDocument

section

variable {set : MatchingRuleSet} {results results' : MatchResults}

/-! ## Evidence -/

theorem containsKey_congr (h : results.Same results') :
    results.containsKey = results'.containsKey := by
  funext name
  rw [IndexMap.containsKey_eq_isSome, IndexMap.containsKey_eq_isSome, h name]

/-- What the document has of the matches of a rule. -/
def renderMatches (set : MatchingRuleSet) (results : MatchResults) (depth : Nat)
    (res : List (Address × MatchResult)) : Except BuildError (List (Address × Match)) :=
  res.mapM fun r => do
    let m ← buildMatch set results depth r.2
    return (r.1, m)

/-- Each rendered match is that of one of the evidence. -/
theorem exists_of_mem_renderMatches {depth : Nat} {res : List (Address × MatchResult)}
    {rendered : List (Address × Match)} (h : renderMatches set results depth res = .ok rendered)
    {x : Address × Match} (hx : x ∈ rendered) :
    ∃ r ∈ res, buildMatch set results depth r.2 = .ok x.2 := by
  obtain ⟨r, hr, hbuild⟩ := exists_of_mem_mapM h hx
  obtain ⟨m, hm, hbuild⟩ := bind_eq_ok.mp hbuild
  obtain rfl := Except.ok.inj hbuild
  exact ⟨r, hr, hm⟩

/-! ## What is built -/

/-- What is spliced in was built from the evidence of the leaf's targets, and the node stays or
    becomes a subscope. -/
theorem splice_ok {build : MatchResult → Except BuildError Match} {t : MatchResult} {name : String}
    (ht : matchLeaf t = some name) {node : Node} {out : Node × List Match}
    (h : splice set results build name node t.locations.toList = .ok out) :
    (out.1 = node ∨ ∃ scope, out.1 = .statement (.subscope none scope)) ∧
      ∀ c ∈ out.2, ∃ b ∈ spliced set results t, build b = .ok c := by
  unfold splice at h
  unfold spliced
  rw [ht]
  dsimp only
  cases hget : set.get name with
  | some rule =>
    rw [hget] at h
    obtain ⟨node', hnode, h⟩ := bind_eq_ok.mp h
    obtain ⟨found, hfound, h⟩ := bind_eq_ok.mp h
    obtain rfl := Except.ok.inj h
    refine ⟨?_, fun c hc => ?_⟩
    · have hnode := mapError_eq_ok.mp hnode
      unfold ruleNode at hnode
      split at hnode
      · split at hnode
        · cases hnode
        · exact .inr ⟨_, (Except.ok.inj hnode).symm⟩
      · exact .inl (Except.ok.inj hnode).symm
    · obtain ⟨o, ho, rfl⟩ := List.mem_filterMap.mp hc
      obtain ⟨a, ha, hat⟩ := exists_of_mem_mapM hfound ho
      obtain ⟨o, hmatch, hat⟩ := bind_eq_ok.mp hat
      cases o with
      | none => cases hat
      | some b =>
        obtain ⟨built, hbuilt, hat⟩ := bind_eq_ok.mp hat
        obtain rfl := Option.some.inj (Except.ok.inj hat)
        refine ⟨b, List.mem_filterMap.mpr ⟨a, ha, ?_⟩, hbuilt⟩
        have hmatch := mapError_eq_ok.mp hmatch
        unfold ruleMatchAt at hmatch
        cases hm : matchAt (ruleMatchIndex results name) a with
        | some m =>
          rw [hm] at hmatch
          exact Except.ok.inj hmatch
        | none =>
          rw [hm] at hmatch
          cases a with
          | call => cases hmatch
          | _ => cases hmatch
  | none =>
    rw [hget] at h
    obtain ⟨found, hfound, h⟩ := bind_eq_ok.mp h
    obtain rfl := Except.ok.inj h
    refine ⟨.inl rfl, fun c hc => ?_⟩
    obtain ⟨cs, hcs, hc⟩ := List.mem_flatten.mp hc
    obtain ⟨ruleName, hrule, hbuild⟩ := exists_of_mem_mapM hfound hcs
    obtain ⟨b, hb, hbuilt⟩ := exists_of_mem_mapM hbuild hc
    exact ⟨b, List.mem_flatMap.mpr ⟨ruleName, hrule, hb⟩, hbuilt⟩

/-- What `buildMatch` builds: the node of the evidence, or a subscope, over what is built from the
    evidence it calls itself on. -/
theorem buildMatch_ok {depth : Nat} {t : MatchResult} {m : Match}
    (h : buildMatch set results (depth + 1) t = .ok m) :
    m.success = t.success ∧
      (nodeFromMatched t.node t.description = .ok m.node ∨
        ∃ scope, m.node = .statement (.subscope none scope)) ∧
      ∀ c ∈ m.children, ∃ b, Calls set results t b ∧ buildMatch set results depth b = .ok c := by
  obtain ⟨node, hnode, h⟩ := bind_eq_ok.mp h
  obtain ⟨children, hchildren, h⟩ := bind_eq_ok.mp h
  have hnode := mapError_eq_ok.mp hnode
  have hchild : ∀ c ∈ children, ∃ b, Calls set results t b ∧
      buildMatch set results depth b = .ok c := by
    intro c hc
    obtain ⟨b, hb, hbuilt⟩ := exists_of_mem_mapM hchildren hc
    exact ⟨b, List.mem_append_left _ hb, hbuilt⟩
  unfold finishMatch at h
  dsimp only at h
  split at h
  · next name hs hn =>
    have ht : matchLeaf t = some name := matchLeaf_eq_some.mpr ⟨hs, (matchName_eq hnode).mp hn⟩
    obtain ⟨out, hsplice, h⟩ := bind_eq_ok.mp h
    obtain rfl := Except.ok.inj h
    obtain ⟨hstays, hspliced⟩ := splice_ok ht hsplice
    refine ⟨rfl, hstays.imp_left fun heq => hnode.trans (congrArg Except.ok heq.symm),
      fun c hc => ?_⟩
    obtain hc | hc := List.mem_append.mp hc
    · exact hchild c hc
    · obtain ⟨b, hb, hbuilt⟩ := hspliced c hc
      exact ⟨b, List.mem_append_right _ hb, hbuilt⟩
  · obtain rfl := Except.ok.inj h
    exact ⟨rfl, .inl hnode, hchild⟩

/-- A match leaf of a rendered tree stands for one of the evidence. -/
theorem matchLeaf_of_built {depth : Nat} {t : MatchResult} {m : Match}
    (h : buildMatch set results (depth + 1) t = .ok m) {name : String} {d : Option String}
    (hs : m.success = true) (hn : m.node = .feature ⟨.matchedRule name, d⟩) :
    matchLeaf t = some name := by
  obtain ⟨hsuccess, hnode, _⟩ := buildMatch_ok h
  refine matchLeaf_eq_some.mpr ⟨hsuccess ▸ hs, ?_⟩
  obtain hnode | ⟨scope, hscope⟩ := hnode
  · refine (matchName_eq hnode).mp ?_
    rw [hn]
    rfl
  · rw [hn] at hscope
    cases hscope

/-! ## The rules of a document -/

variable {order order' : IterOrder} {depth : Nat} {doc : OrdMap String RuleMatches} {name : String}

/-- A rule of the document is recorded, and has its evidence rendered. -/
theorem rule_of_document (hdoc : buildResultDocument set results order depth = .ok doc)
    {rm : RuleMatches} (h : doc.get? name = some rm) :
    ∃ res, results.get? name = some res ∧ set.get name = some rm.rule ∧
      rm.rule.isSubscopeRule = false ∧
      renderMatches set results depth res = .ok rm.matches_ := by
  refine (foldlM_inv (P := fun doc : OrdMap String RuleMatches => ∀ name rm,
    doc.get? name = some rm → ∃ res, results.get? name = some res ∧
      set.get name = some rm.rule ∧ rm.rule.isSubscopeRule = false ∧
      renderMatches set results depth res = .ok rm.matches_) hdoc ?_ ?_) name rm h
  · intro name rm h
    rw [OrdMap.get?_empty] at h
    cases h
  · intro e he rules rules' hrules hturn name rm hget
    unfold renderRule at hturn
    split at hturn
    · obtain rfl := Except.ok.inj hturn
      exact hrules name rm hget
    · next rule hrule =>
      split at hturn
      · obtain rfl := Except.ok.inj hturn
        exact hrules name rm hget
      · next hsub =>
        obtain ⟨rendered, hrendered, hturn⟩ := bind_eq_ok.mp hturn
        obtain rfl := Except.ok.inj hturn
        rw [OrdMap.get?_upsert] at hget
        split at hget
        · next hname =>
          subst hname
          obtain rfl := Option.some.inj hget
          exact ⟨e.2, (order.mem_reorder _ _).mp he, hrule, Bool.eq_false_iff.mpr hsub, hrendered⟩
        · exact hrules name rm hget

/-- Every recorded rule that is no subscope rule is in the document. -/
theorem mem_document (hdoc : buildResultDocument set results order depth = .ok doc)
    {res : List (Address × MatchResult)} {rule : Rule} (hres : results.get? name = some res)
    (hget : set.get name = some rule) (hsub : rule.isSubscopeRule = false) :
    ∃ rm, doc.get? name = some rm := by
  have hall := foldlM_visited (P := fun seen (doc : OrdMap String RuleMatches) =>
    ∀ e ∈ seen, ∀ rule, set.get e.1 = some rule → rule.isSubscopeRule = false →
      (doc.get? e.1).isSome = true) hdoc (fun e he => absurd he List.not_mem_nil) ?_
  · exact Option.isSome_iff_exists.mp
      (hall (name, res) ((order.mem_reorder _ _).mpr hres) rule hget hsub)
  · intro seen e _ rules rules' hseen hturn d hd rule' hrule' hsub'
    -- a turn drops no rule, and adds the one it is about
    unfold renderRule at hturn
    obtain hd | hd := List.mem_append.mp hd
    · have hold := hseen d hd rule' hrule' hsub'
      split at hturn
      · obtain rfl := Except.ok.inj hturn
        exact hold
      · split at hturn
        · obtain rfl := Except.ok.inj hturn
          exact hold
        · obtain ⟨rendered, _, hturn⟩ := bind_eq_ok.mp hturn
          obtain rfl := Except.ok.inj hturn
          rw [OrdMap.get?_upsert]
          split
          · rfl
          · exact hold
    · obtain rfl := List.mem_singleton.mp hd
      rw [hrule'] at hturn
      dsimp only at hturn
      rw [if_neg (Bool.eq_false_iff.mp hsub')] at hturn
      obtain ⟨rendered, _, hturn⟩ := bind_eq_ok.mp hturn
      obtain rfl := Except.ok.inj hturn
      rw [OrdMap.get?_upsert, if_pos rfl]
      rfl

end

end ResultDocument

end CapaX
