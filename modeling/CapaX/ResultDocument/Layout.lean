import CapaX.ResultDocument.DynamicSites
import CapaX.Wire.Document
import CapaX.Wire.RoundTrip

/-
  The layout in the metadata of a result document (`from_capa.rs`): the basic blocks, or the calls,
  that matched, under the functions, or the processes and threads, they are in. The renderer takes
  the name of a process from there (`verbose.rs`).

  A static layout misses no match of a rule for basic blocks (`computeStaticLayout_complete`), and
  a dynamic one no call that any evidence points to (`computeDynamicLayout_complete`): on a sample
  whose calls are where their addresses say, the process of every such call has its name.
-/

namespace CapaX

open Collections Control

deriving instance DecidableEq for AddressValue, RdAddress

theorem RdAddress.from_inj {a b : Address} (h : RdAddress.from a = RdAddress.from b) : a = b := by
  have ha := readAddress a
  rw [h, readAddress b] at ha
  exact (Except.ok.inj (Option.some.inj ha)).symm

namespace ResultDocument

/-! ## Groups -/

/-- The groups that have an item, with their items. -/
def nonemptyGroups {α β γ : Type} (items : α → List β) (group : α → List β → γ) (us : List α) :
    List γ :=
  us.filterMap fun u => if (items u).isEmpty then none else some (group u (items u))

theorem mem_nonemptyGroups {α β γ : Type} {items : α → List β} {group : α → List β → γ}
    {us : List α} {g : γ} :
    g ∈ nonemptyGroups items group us ↔ ∃ u ∈ us, items u ≠ [] ∧ group u (items u) = g := by
  unfold nonemptyGroups
  rw [List.mem_filterMap]
  refine exists_congr fun u => and_congr_right fun _ => ?_
  cases hitems : items u with
  | nil => simp
  | cons b bs => simp

/-- An item is in a group exactly when it is one of its items. -/
theorem exists_mem_nonemptyGroups {α β γ : Type} {items : α → List β} {group : α → List β → γ}
    {us : List α} {P : γ → Prop} (hP : ∀ u, P (group u (items u)) → items u ≠ []) :
    (∃ g ∈ nonemptyGroups items group us, P g) ↔ ∃ u ∈ us, P (group u (items u)) := by
  constructor
  · intro ⟨g, hg, hp⟩
    obtain ⟨u, hu, _, rfl⟩ := mem_nonemptyGroups.mp hg
    exact ⟨u, hu, hp⟩
  · intro ⟨u, hu, hp⟩
    exact ⟨_, mem_nonemptyGroups.mpr ⟨u, hu, hP u hp, rfl⟩, hp⟩

/-! ## The static layout -/

structure BasicBlockLayout where
  address : RdAddress
  deriving DecidableEq

structure FunctionLayout where
  address : RdAddress
  matchedBasicBlocks : List BasicBlockLayout

structure StaticLayout where
  functions : List FunctionLayout

/-- `matched_bbs`: where the rules for basic blocks have matches. -/
def matchedBlocks (set : MatchingRuleSet) (order : IterOrder) (capabilities : MatchResults) :
    OrdSet Address :=
  (order.reorder capabilities).entries.foldl (fun matched e =>
    match set.get e.1 with
    | none => matched
    | some rule =>
      if rule.scopes.contains .basicBlock then matched.insertAll (e.2.map (·.1)) else matched) ∅

def computeStaticLayout (set : MatchingRuleSet) (order : IterOrder) (freeze : StaticFeatures)
    (capabilities : MatchResults) : StaticLayout :=
  let matched := matchedBlocks set order capabilities
  ⟨nonemptyGroups (fun f => f.2.basicBlocks.keys.filter fun b => decide (b ∈ matched))
    (fun f bbs => ⟨.from f.1, bbs.map fun b => ⟨.from b⟩⟩) freeze.functions.entries⟩

/-- The layout lists the block under the function. -/
def StaticLayout.Lists (layout : StaticLayout) (function block : Address) : Prop :=
  ∃ f ∈ layout.functions, f.address = .from function ∧ ⟨.from block⟩ ∈ f.matchedBasicBlocks

/-- A rule for basic blocks is recorded at the address. -/
def BlockMatched (set : MatchingRuleSet) (capabilities : MatchResults) (a : Address) : Prop :=
  ∃ name rule, set.get name = some rule ∧ rule.scopes.contains .basicBlock = true ∧
    Recorded capabilities name a

theorem mem_matchedBlocks {set : MatchingRuleSet} {order : IterOrder}
    {capabilities : MatchResults} {a : Address} :
    a ∈ matchedBlocks set order capabilities ↔ BlockMatched set capabilities a := by
  have hturn : ∀ (e : String × List (Address × MatchResult)) (matched : OrdSet Address),
      (a ∈ match set.get e.1 with
        | none => matched
        | some rule =>
          if rule.scopes.contains .basicBlock then matched.insertAll (e.2.map Prod.fst)
          else matched) ↔
      a ∈ matched ∨ ∃ rule, set.get e.1 = some rule ∧
        rule.scopes.contains .basicBlock = true ∧ ∃ r ∈ e.2, r.1 = a := by
    intro e matched
    cases hget : set.get e.1 with
    | none => simp
    | some rule =>
      cases hscope : rule.scopes.contains .basicBlock with
      | false => simp [hscope]
      | true => simp [hscope]
  refine (OrdSet.mem_foldl (fun e _ => hturn e) ∅).trans ?_
  rw [or_iff_right (OrdSet.not_mem_empty a)]
  constructor
  · intro ⟨e, he, rule, hget, hscope, hr⟩
    exact ⟨e.1, rule, hget, hscope, e.2, (order.mem_reorder _ _).mp he, hr⟩
  · intro ⟨name, rule, hget, hscope, res, hres, hr⟩
    exact ⟨(name, res), (order.mem_reorder _ _).mpr hres, rule, hget, hscope, hr⟩

/-- The layout lists the blocks at which a rule for basic blocks is recorded. -/
theorem staticLayout_lists {set : MatchingRuleSet} {order : IterOrder} {freeze : StaticFeatures}
    {capabilities : MatchResults} {function block : Address} :
    (computeStaticLayout set order freeze capabilities).Lists function block ↔
      (∃ f ∈ freeze.functions.entries, f.1 = function ∧ block ∈ f.2.basicBlocks.keys) ∧
        BlockMatched set capabilities block := by
  unfold StaticLayout.Lists computeStaticLayout
  rw [exists_mem_nonemptyGroups]
  · simp only [List.mem_map, List.mem_filter, decide_eq_true_eq, mem_matchedBlocks,
      BasicBlockLayout.mk.injEq]
    constructor
    · intro ⟨f, hf, haddr, b, ⟨hb, hmatched⟩, hblock⟩
      obtain rfl := RdAddress.from_inj hblock
      exact ⟨⟨f, hf, RdAddress.from_inj haddr, hb⟩, hmatched⟩
    · intro ⟨⟨f, hf, haddr, hb⟩, hmatched⟩
      exact ⟨f, hf, congrArg _ haddr, block, ⟨hb, hmatched⟩, rfl⟩
  · intro f h hnil
    rw [hnil] at h
    exact List.not_mem_nil h.2

end ResultDocument

section

variable [ComDatabase] [RegexBackend] {rules : List Rule} {set : MatchingRuleSet}

omit [ComDatabase] [RegexBackend] in
theorem StaticSite.at_block {freeze : StaticFeatures} {scope : Scope} {a : Address}
    {L : Address → Prop} (hsite : StaticSite freeze scope a L)
    (hscope : scope = .basicBlock ∨ scope ∈ dynamicScopes) :
    a = .noAddress ∨ ∃ f ∈ freeze.functions.entries, a ∈ f.2.basicBlocks.keys := by
  cases hsite with
  | file => exact .inl rfl
  | lower hlower =>
    obtain ⟨f, hf, hsite⟩ := hlower
    cases hsite with
    | function => exact absurd hscope (by decide)
    | instruction hb hi => exact absurd hscope (by decide)
    | basicBlock hb => exact .inr ⟨f, hf, List.mem_map_of_mem hb⟩

/-- A rule for basic blocks is recorded at blocks of the sample. It is one for the file too when
    that is its dynamic scope: matching does not ask for the flavor. -/
theorem blockMatched_at_block (hset : MatchingRuleSet.new rules = .ok set)
    {freeze : StaticFeatures} {orders : StaticOrders} {caps : StaticCapabilities}
    (hrun : findStaticCapabilities set freeze orders = .ok caps) {name : String} {rule : Rule}
    (hget : set.get name = some rule) (hstatic : rule.scopes.static_ = some .basicBlock)
    (hdynamic : ∀ scope, rule.scopes.dynamic = some scope → scope ∈ dynamicScopes)
    {a : Address} (hrec : Recorded caps.results name a) :
    a = .noAddress ∨ ∃ f ∈ freeze.functions.entries, a ∈ f.2.basicBlocks.keys := by
  obtain ⟨res, hres, r, hr, rfl⟩ := hrec
  obtain ⟨rule', scope, L, hget', hscope, hsite, _⟩ :=
    sited_of_static hset hrun name res hres r hr
  obtain rfl := Option.some.inj (hget.symm.trans hget')
  have hscope : scope = .basicBlock ∨ scope ∈ dynamicScopes := by
    obtain hs | hd := Bool.or_eq_true_iff.mp hscope
    · exact .inl (Option.some.inj ((of_decide_eq_true hs).symm.trans hstatic))
    · exact .inr (hdynamic scope (of_decide_eq_true hd))
  exact hsite.at_block hscope

/-- The static layout of a run lists, under its function, exactly the blocks at which a rule for
    basic blocks is recorded, and no match of such a rule is at a block that is not listed. -/
theorem computeStaticLayout_complete (hset : MatchingRuleSet.new rules = .ok set)
    (freeze : StaticFeatures) (orders : StaticOrders) (caps : StaticCapabilities)
    (hrun : findStaticCapabilities set freeze orders = .ok caps) (order : IterOrder) :
    (∀ function block,
      (ResultDocument.computeStaticLayout set order freeze caps.results).Lists function block ↔
        (∃ f ∈ freeze.functions.entries, f.1 = function ∧ block ∈ f.2.basicBlocks.keys) ∧
          ∃ name rule, set.get name = some rule ∧ rule.scopes.contains .basicBlock = true ∧
            Recorded caps.results name block) ∧
    ∀ name rule, set.get name = some rule → rule.scopes.static_ = some .basicBlock →
      (∀ scope, rule.scopes.dynamic = some scope → scope ∈ dynamicScopes) →
      ∀ a, Recorded caps.results name a → a = .noAddress ∨ ∃ function,
        (ResultDocument.computeStaticLayout set order freeze caps.results).Lists function a := by
  refine ⟨fun function block => ResultDocument.staticLayout_lists, ?_⟩
  intro name rule hget hstatic hdynamic a hrec
  obtain hnone | ⟨f, hf, hblock⟩ := blockMatched_at_block hset hrun hget hstatic hdynamic hrec
  · exact .inl hnone
  · refine .inr ⟨f.1, ResultDocument.staticLayout_lists.mpr ⟨⟨f, hf, rfl, hblock⟩, ?_⟩⟩
    have hcontains : rule.scopes.contains .basicBlock = true := by
      rw [Scopes.contains, hstatic]
      rfl
    exact ⟨name, rule, hget, hcontains, hrec⟩

end

theorem computeStaticLayout_complete_nestedSubscopes :
    ∃ set caps, @MatchingRuleSet.new .empty nestedSubscopes = .ok set ∧
      @findStaticCapabilities .empty set copyingSample .insertion = .ok caps ∧
      ∃ function, (ResultDocument.computeStaticLayout set .insertion copyingSample
        caps.results).Lists function (.absolute 0x1000) := by
  refine ⟨_, _, rfl, rfl, ?_⟩
  have h := (@computeStaticLayout_complete .empty .empty nestedSubscopes _ rfl copyingSample
    .insertion _ rfl .insertion).2 "a/1/1" _ rfl rfl (fun scope hscope => by cases hscope)
    (.absolute 0x1000) ⟨_, rfl, _, List.mem_cons_self, rfl⟩
  exact h.resolve_left (by decide)

/-! ## The dynamic layout -/

/-- `Address::Call { .. }` -/
def Address.isCall : Address → Bool
  | .call .. => true
  | _ => false

namespace ResultDocument

structure CallLayout where
  address : RdAddress
  name : String

structure ThreadLayout where
  address : RdAddress
  matchedCalls : List CallLayout

structure ProcessLayout where
  address : RdAddress
  name : String
  matchedThreads : List ThreadLayout

structure DynamicLayout where
  processes : List ProcessLayout

mutual

def collectMatchedCalls : MatchResult → OrdSet Address → OrdSet Address
  | ⟨_, _, _, locations, children, _⟩, out =>
    collectChildren children
      (locations.toList.foldl (fun out loc => if loc.isCall then out.insert loc else out) out)

def collectChildren : List MatchResult → OrdSet Address → OrdSet Address
  | [], out => out
  | child :: rest, out => collectChildren rest (collectMatchedCalls child out)

end

/-- `matched_calls` -/
def matchedCalls (order : IterOrder) (capabilities : MatchResults) : OrdSet Address :=
  (order.reorder capabilities).entries.foldl (fun out e =>
    e.2.foldl (fun out r => collectMatchedCalls r.2 out) out) ∅

def callLayouts (matched : OrdSet Address) (t : Address × NamedThread) : List CallLayout :=
  t.2.calls.entries.filterMap fun c =>
    if c.1 ∈ matched then some ⟨.from c.1, c.2.name⟩ else none

def threadLayouts (matched : OrdSet Address) (p : Address × NamedProcess) : List ThreadLayout :=
  nonemptyGroups (callLayouts matched) (fun t calls => ⟨.from t.1, calls⟩) p.2.threads.entries

def computeDynamicLayout (order : IterOrder) (freeze : NamedDynamic)
    (capabilities : MatchResults) : DynamicLayout :=
  ⟨nonemptyGroups (threadLayouts (matchedCalls order capabilities))
    (fun p threads => ⟨.from p.1, p.2.name, threads⟩) freeze.processes.entries⟩

/-- The layout lists the call under the thread and the process. -/
def DynamicLayout.Lists (layout : DynamicLayout) (process thread call : Address) : Prop :=
  ∃ p ∈ layout.processes, p.address = .from process ∧
    ∃ t ∈ p.matchedThreads, t.address = .from thread ∧
      ∃ c ∈ t.matchedCalls, c.address = .from call

/-- Evidence of a recorded match points to the address. -/
def Evidenced (capabilities : MatchResults) (a : Address) : Prop :=
  ∃ name res, capabilities.get? name = some res ∧ ∃ r ∈ res, ∃ t ∈ r.2.nodes, a ∈ t.locations

/-! ### The renderer -/

def processName (layout : DynamicLayout) (addr : RdAddress) : Option String :=
  (layout.processes.find? fun p => decide (p.address = addr)).map (·.name)

/-- The process of a thread or a call. -/
def threadProcessAddr (addr : RdAddress) : RdAddress :=
  match addr.value with
  | some (.tuple (ppid :: pid :: _)) => ⟨"process", some (.tuple [ppid, pid])⟩
  | _ => addr

/-- The thread of a call. -/
def callThreadAddr (addr : RdAddress) : RdAddress :=
  match addr.value with
  | some (.tuple (ppid :: pid :: tid :: _)) => ⟨"thread", some (.tuple [ppid, pid, tid])⟩
  | _ => addr

def renderThread (layout : DynamicLayout) (addr : RdAddress) : String :=
  let name := (processName layout (threadProcessAddr addr)).getD ""
  let ids := match addr.value with
    | some (.tuple t) => ((t[1]?).getD 0, (t[2]?).getD 0)
    | _ => (0, 0)
  name ++ String.singleton '{' ++ "pid:" ++ toString ids.1.toNat ++ ",tid:" ++
    toString ids.2.toNat ++ String.singleton '}'

/-! ### What is listed -/

theorem mem_collectMatchedCalls {a : Address} {m : MatchResult} {out : OrdSet Address} :
    a ∈ collectMatchedCalls m out ↔
      a ∈ out ∨ a.isCall = true ∧ ∃ t ∈ m.nodes, a ∈ t.locations := by
  induction m using MatchResult.induct generalizing out with
  | h m ih =>
    have hchildren : ∀ (cs : List MatchResult) (out : OrdSet Address), (∀ c ∈ cs, c ∈ m.children) →
        (a ∈ collectChildren cs out ↔
          a ∈ out ∨ a.isCall = true ∧ ∃ c ∈ cs, ∃ t ∈ c.nodes, a ∈ t.locations) := by
      intro cs
      induction cs with
      | nil => simp [collectChildren]
      | cons c cs ihs =>
        intro out hcs
        rw [collectChildren, ihs _ fun x hx => hcs x (List.mem_cons_of_mem _ hx),
          ih c (hcs c List.mem_cons_self), List.exists_mem_cons_iff, and_or_left, or_assoc]
    have hlocation : ∀ (loc : Address) (out : OrdSet Address),
        a ∈ (if loc.isCall then out.insert loc else out) ↔
          a ∈ out ∨ a.isCall = true ∧ a = loc := by
      intro loc out
      by_cases hcall : loc.isCall = true
      · rw [if_pos hcall, OrdSet.mem_insert, or_comm]
        exact or_congr_right ⟨fun h => ⟨h ▸ hcall, h⟩, And.right⟩
      · rw [if_neg hcall]
        refine (or_iff_left fun h => ?_).symm
        obtain ⟨ha, rfl⟩ := h
        exact hcall ha
    have hlocations : ∀ (locs : List Address) (out : OrdSet Address),
        a ∈ locs.foldl (fun out loc => if loc.isCall then out.insert loc else out) out ↔
          a ∈ out ∨ a.isCall = true ∧ a ∈ locs := by
      intro locs out
      rw [OrdSet.mem_foldl fun loc _ => hlocation loc]
      refine or_congr_right ⟨?_, fun h => ⟨a, h.2, h.1, rfl⟩⟩
      intro ⟨loc, hloc, hcall, ha⟩
      exact ⟨hcall, ha ▸ hloc⟩
    have hnodes : (∃ t ∈ m.nodes, a ∈ t.locations) ↔
        a ∈ m.locations ∨ ∃ c ∈ m.children, ∃ t ∈ c.nodes, a ∈ t.locations := by
      constructor
      · intro ⟨t, ht, ha⟩
        obtain rfl | ⟨c, hc, ht⟩ := MatchResult.mem_nodes.mp ht
        · exact .inl ha
        · exact .inr ⟨c, hc, t, ht, ha⟩
      · intro h
        obtain ha | ⟨c, hc, t, ht, ha⟩ := h
        · exact ⟨m, m.self_mem_nodes, ha⟩
        · exact ⟨t, MatchResult.mem_nodes.mpr (.inr ⟨c, hc, ht⟩), ha⟩
    rw [hnodes, and_or_left, ← or_assoc]
    obtain ⟨success, node, description, locations, children, captures⟩ := m
    rw [collectMatchedCalls, hchildren children _ fun _ h => h, hlocations]
    rfl

theorem mem_matchedCalls {order : IterOrder} {capabilities : MatchResults} {a : Address} :
    a ∈ matchedCalls order capabilities ↔ a.isCall = true ∧ Evidenced capabilities a := by
  have hturn : ∀ (e : String × List (Address × MatchResult)) (out : OrdSet Address),
      a ∈ e.2.foldl (fun out r => collectMatchedCalls r.2 out) out ↔
        a ∈ out ∨ ∃ r ∈ e.2, a.isCall = true ∧ ∃ t ∈ r.2.nodes, a ∈ t.locations :=
    fun e => OrdSet.mem_foldl fun r _ out => mem_collectMatchedCalls
  refine (OrdSet.mem_foldl (fun e _ => hturn e) ∅).trans ?_
  rw [or_iff_right (OrdSet.not_mem_empty a)]
  constructor
  · intro ⟨e, he, r, hr, hcall, hev⟩
    exact ⟨hcall, e.1, e.2, (order.mem_reorder _ _).mp he, r, hr, hev⟩
  · intro ⟨hcall, name, res, hres, r, hr, hev⟩
    exact ⟨(name, res), (order.mem_reorder _ _).mpr hres, r, hr, hcall, hev⟩

end ResultDocument

/-- The sample has the call in the thread and the process. -/
def NamedDynamic.HasCall (d : NamedDynamic) (process thread call : Address) : Prop :=
  ∃ p ∈ d.processes.entries, p.1 = process ∧ ∃ t ∈ p.2.threads.entries, t.1 = thread ∧
    ∃ c ∈ t.2.calls.entries, c.1 = call

namespace ResultDocument

/-- The layout lists the calls that evidence points to. -/
theorem dynamicLayout_lists {order : IterOrder} {freeze : NamedDynamic}
    {capabilities : MatchResults} {process thread call : Address} :
    (computeDynamicLayout order freeze capabilities).Lists process thread call ↔
      freeze.HasCall process thread call ∧ call.isCall = true ∧ Evidenced capabilities call := by
  have hcalls : ∀ t : Address × NamedThread,
      (∃ c ∈ callLayouts (matchedCalls order capabilities) t, c.address = .from call) ↔
        (∃ c ∈ t.2.calls.entries, c.1 = call) ∧ call.isCall = true ∧
          Evidenced capabilities call := by
    intro t
    constructor
    · intro ⟨c, hc, haddr⟩
      obtain ⟨x, hx, hc⟩ := List.mem_filterMap.mp hc
      split at hc
      · next hmatched =>
        obtain rfl := Option.some.inj hc
        obtain rfl := RdAddress.from_inj haddr
        exact ⟨⟨x, hx, rfl⟩, mem_matchedCalls.mp hmatched⟩
      · cases hc
    · intro ⟨⟨x, hx, haddr⟩, hmatched⟩
      subst haddr
      exact ⟨⟨.from x.1, x.2.name⟩,
        List.mem_filterMap.mpr ⟨x, hx, if_pos (mem_matchedCalls.mpr hmatched)⟩, rfl⟩
  have hthreads : ∀ p : Address × NamedProcess,
      (∃ t ∈ threadLayouts (matchedCalls order capabilities) p, t.address = .from thread ∧
        ∃ c ∈ t.matchedCalls, c.address = .from call) ↔
      (∃ t ∈ p.2.threads.entries, t.1 = thread ∧ ∃ c ∈ t.2.calls.entries, c.1 = call) ∧
        call.isCall = true ∧ Evidenced capabilities call := by
    intro p
    unfold threadLayouts
    rw [exists_mem_nonemptyGroups]
    · constructor
      · intro ⟨t, ht, haddr, hc⟩
        obtain ⟨hhas, hev⟩ := (hcalls t).mp hc
        exact ⟨⟨t, ht, RdAddress.from_inj haddr, hhas⟩, hev⟩
      · intro ⟨⟨t, ht, haddr, hhas⟩, hev⟩
        exact ⟨t, ht, congrArg RdAddress.from haddr, (hcalls t).mpr ⟨hhas, hev⟩⟩
    · intro t h hnil
      obtain ⟨_, c, hc, _⟩ := h
      rw [hnil] at hc
      exact List.not_mem_nil hc
  unfold DynamicLayout.Lists computeDynamicLayout
  rw [exists_mem_nonemptyGroups]
  · constructor
    · intro ⟨p, hp, haddr, ht⟩
      obtain ⟨hhas, hev⟩ := (hthreads p).mp ht
      exact ⟨⟨p, hp, RdAddress.from_inj haddr, hhas⟩, hev⟩
    · intro ⟨⟨p, hp, haddr, hhas⟩, hev⟩
      exact ⟨p, hp, congrArg RdAddress.from haddr, (hthreads p).mpr ⟨hhas, hev⟩⟩
  · intro p h hnil
    obtain ⟨_, t, ht, _⟩ := h
    rw [hnil] at ht
    exact List.not_mem_nil ht

/-- A process with a listed call is found under its address, with its name. -/
theorem processName_of_lists {order : IterOrder} {freeze : NamedDynamic}
    {capabilities : MatchResults} {process thread call : Address}
    (h : (computeDynamicLayout order freeze capabilities).Lists process thread call) :
    ∃ p ∈ freeze.processes.entries, p.1 = process ∧
      processName (computeDynamicLayout order freeze capabilities) (.from process) =
        some p.2.name := by
  obtain ⟨found, hfound⟩ : ∃ found, (computeDynamicLayout order freeze
      capabilities).processes.find? (fun p => decide (p.address = .from process)) = some found := by
    obtain ⟨p, hp, haddr, _⟩ := h
    exact Option.isSome_iff_exists.mp (List.find?_isSome.mpr ⟨p, hp, decide_eq_true haddr⟩)
  obtain ⟨p, hp, _, rfl⟩ := mem_nonemptyGroups.mp (List.mem_of_find?_eq_some hfound)
  have haddr := List.find?_some hfound
  refine ⟨p, hp, RdAddress.from_inj (of_decide_eq_true haddr), ?_⟩
  rw [processName, hfound]
  rfl

end ResultDocument

/-! ## Samples whose calls are where their addresses say -/

/-- A call has its process's numbers in its address, threads and processes are not at call
    addresses, and a feature at a call address is at a call of the sample. -/
structure NamedDynamic.CallsPlaced (d : NamedDynamic) : Prop where
  file : ∀ e ∈ d.fileFeatures, e.1.isCall = true → ∃ p t, d.HasCall p t e.1
  process : ∀ p ∈ d.processes.entries, p.1.isCall = false ∧
    ∀ e ∈ p.2.features, e.1.isCall = true → ∃ p t, d.HasCall p t e.1
  thread : ∀ p ∈ d.processes.entries, ∀ t ∈ p.2.threads.entries, t.1.isCall = false ∧
    ∀ e ∈ t.2.features, e.1.isCall = true → ∃ p t, d.HasCall p t e.1
  call : ∀ p ∈ d.processes.entries, ∀ t ∈ p.2.threads.entries, ∀ c ∈ t.2.calls.entries,
    (∃ ppid pid tid id, p.1 = .process ppid pid ∧ c.1 = .call ppid pid tid id) ∧
      ∀ e ∈ c.2.features, e.1.isCall = true → ∃ p t, d.HasCall p t e.1

theorem NamedDynamic.CallsPlaced.of_lowerSite {d : NamedDynamic} (hd : d.CallsPlaced)
    {scope : Scope} {a : Address} {L : Address → Prop} (hsite : d.unnamed.LowerSite scope a L)
    (hcall : a.isCall = true) : ∃ p t, d.HasCall p t a := by
  obtain ⟨p, hmem, hsite⟩ := hsite
  obtain ⟨x, hx, rfl⟩ := List.mem_map.mp hmem
  cases hsite with
  | process => exact absurd hcall (Bool.eq_false_iff.mp (hd.process x hx).1)
  | thread hmem hsite =>
    obtain ⟨y, hy, rfl⟩ := List.mem_map.mp hmem
    have hhas : ∀ c ∈ y.2.unnamed.calls.entries, ∃ p t, d.HasCall p t c.1 := by
      intro c hmem
      obtain ⟨z, hz, rfl⟩ := List.mem_map.mp hmem
      exact ⟨x.1, y.1, x, hx, rfl, y, hy, rfl, z, hz, rfl⟩
    cases hsite with
    | thread => exact absurd hcall (Bool.eq_false_iff.mp (hd.thread x hx y hy).1)
    | call hc => exact hhas _ hc
    | span hstarts =>
      exact hhas _ (hstarts.subset (List.mem_append_right _ List.mem_cons_self))

/-- Where the evidence of a unit points to a call, the sample has the call. -/
theorem NamedDynamic.CallsPlaced.of_site {d : NamedDynamic} (hd : d.CallsPlaced) {scope : Scope}
    {a : Address} {L : Address → Prop} (hsite : d.unnamed.Site scope a L) {b : Address} (hb : L b)
    (hcall : b.isCall = true) : ∃ p t, d.HasCall p t b := by
  have hc : ∀ {p t c}, p ∈ d.processes.entries → t ∈ p.2.threads.entries →
      c ∈ t.2.calls.entries → callMentions (c.1, ⟨c.2.features⟩) b → ∃ p t, d.HasCall p t b := by
    intro p t c hp ht hc h
    obtain rfl | rfl | ⟨e, he, rfl⟩ | h := h
    · cases hcall
    · exact ⟨p.1, t.1, p, hp, rfl, t, ht, rfl, c, hc, rfl⟩
    · exact (hd.call p hp t ht c hc).2 e he hcall
    · exact h.elim
  have hcalls : ∀ {p t}, p ∈ d.processes.entries → t ∈ p.2.threads.entries →
      ∀ c ∈ t.2.unnamed.calls.entries, callMentions c b → ∃ p t, d.HasCall p t b := by
    intro p t hp ht c hmem h
    obtain ⟨x, hx, rfl⟩ := List.mem_map.mp hmem
    exact hc hp ht hx h
  have ht : ∀ {p t}, p ∈ d.processes.entries → t ∈ p.2.threads.entries →
      threadMentions (t.1, t.2.unnamed) b → ∃ p t, d.HasCall p t b := by
    intro p t hp ht h
    obtain rfl | rfl | ⟨e, he, rfl⟩ | ⟨c, hmem, h⟩ := h
    · cases hcall
    · exact absurd hcall (Bool.eq_false_iff.mp (hd.thread p hp t ht).1)
    · exact (hd.thread p hp t ht).2 e he hcall
    · exact hcalls hp ht c hmem h
  have hp : ∀ {p}, p ∈ d.processes.entries → processMentions (p.1, p.2.unnamed) b →
      ∃ p t, d.HasCall p t b := by
    intro p hp h
    obtain rfl | rfl | ⟨e, he, rfl⟩ | ⟨t, hmem, h⟩ := h
    · cases hcall
    · exact absurd hcall (Bool.eq_false_iff.mp (hd.process p hp).1)
    · exact (hd.process p hp).2 e he hcall
    · obtain ⟨x, hx, rfl⟩ := List.mem_map.mp hmem
      exact ht hp hx h
  cases hsite with
  | file =>
    obtain rfl | rfl | ⟨e, he, rfl⟩ | ⟨scope, L, hlower⟩ := hb
    · cases hcall
    · cases hcall
    · exact hd.file e he hcall
    · exact hd.of_lowerSite hlower hcall
  | lower hlower =>
    obtain ⟨p, hmem, hsite⟩ := hlower
    obtain ⟨x, hx, rfl⟩ := List.mem_map.mp hmem
    cases hsite with
    | process => exact hp hx hb
    | thread hmem hsite =>
      obtain ⟨y, hy, rfl⟩ := List.mem_map.mp hmem
      cases hsite with
      | thread => exact ht hx hy hb
      | call hc => exact hcalls hx hy _ hc hb
      | span hstarts =>
        obtain rfl | ⟨c, hc, h⟩ := hb
        · cases hcall
        · exact hcalls hx hy c (hstarts.subset (List.mem_of_mem_drop hc)) h

section

variable [ComDatabase] [RegexBackend] {rules : List Rule} {set : MatchingRuleSet}

/-- The dynamic layout of a run lists exactly the calls of the sample that the evidence of a
    recorded match points to. On a sample whose calls are where their addresses say it lists every
    call that evidence points to, and the renderer shows the call's thread with the name its
    process has in the sample. -/
theorem computeDynamicLayout_complete (hset : MatchingRuleSet.new rules = .ok set)
    (freeze : NamedDynamic) (orders : DynamicOrders) (caps : DynamicCapabilities)
    (hrun : findDynamicCapabilities set freeze.unnamed orders = .ok caps) (order : IterOrder) :
    (∀ process thread call,
      (ResultDocument.computeDynamicLayout order freeze caps.results).Lists process thread call ↔
        freeze.HasCall process thread call ∧ call.isCall = true ∧
          ResultDocument.Evidenced caps.results call) ∧
    (freeze.CallsPlaced → ∀ ppid pid tid id,
      ResultDocument.Evidenced caps.results (.call ppid pid tid id) →
      ∃ p thread, p ∈ freeze.processes.entries ∧ p.1 = .process ppid pid ∧
        (ResultDocument.computeDynamicLayout order freeze caps.results).Lists (.process ppid pid)
          thread (.call ppid pid tid id) ∧
        ResultDocument.renderThread
            (ResultDocument.computeDynamicLayout order freeze caps.results)
            (ResultDocument.callThreadAddr (.from (.call ppid pid tid id))) =
          p.2.name ++ String.singleton '{' ++ "pid:" ++ toString pid.toNat ++ ",tid:" ++
            toString tid.toNat ++ String.singleton '}') := by
  refine ⟨fun process thread call => ResultDocument.dynamicLayout_lists, ?_⟩
  intro hplaced ppid pid tid id hev
  obtain ⟨process, thread, hhas⟩ : ∃ p t, freeze.HasCall p t (.call ppid pid tid id) := by
    obtain ⟨name, res, hres, r, hr, t, ht, ha⟩ := hev
    obtain ⟨_, _, L, _, _, hsite, hwithin, _⟩ :=
      sited_of_dynamic hset hrun name res hres r hr
    exact hplaced.of_site hsite (hwithin t ht _ ha) rfl
  obtain ⟨p, hp, rfl, t, ht, rfl, c, hc, haddr⟩ := hhas
  obtain ⟨⟨ppid', pid', tid', id', hprocess, hcall⟩, _⟩ := hplaced.call p hp t ht c hc
  obtain ⟨rfl, rfl, rfl, rfl⟩ : ppid = ppid' ∧ pid = pid' ∧ tid = tid' ∧ id = id' := by
    rw [hcall] at haddr
    simpa [eq_comm] using haddr
  have hlists : (ResultDocument.computeDynamicLayout order freeze caps.results).Lists
      (.process ppid pid) t.1 (.call ppid pid tid id) :=
    ResultDocument.dynamicLayout_lists.mpr
      ⟨⟨p, hp, hprocess, t, ht, rfl, c, hc, haddr⟩, rfl, hev⟩
  obtain ⟨q, hq, hqaddr, hname⟩ := ResultDocument.processName_of_lists hlists
  refine ⟨q, t.1, hq, hqaddr, hlists, ?_⟩
  unfold ResultDocument.renderThread
  have hthread : ResultDocument.threadProcessAddr
      (ResultDocument.callThreadAddr (.from (.call ppid pid tid id))) =
      .from (.process ppid pid) := rfl
  rw [hthread, hname]
  simp [ResultDocument.callThreadAddr, RdAddress.from]

end

/-- The writing process, with names. -/
def namedWritingProcess : NamedDynamic where
  globalFeatures := [.os "windows"]
  fileFeatures := []
  processes := .ofList [(.process 0 1, ⟨"writer.exe", [], .ofList [(.thread 0 1 1, ⟨[], .ofList
    [(.call 0 1 1 0, ⟨"CreateFile", [(.call 0 1 1 0, .api "CreateFile")]⟩),
      (.call 0 1 1 1, ⟨"WriteFile", [(.call 0 1 1 1, .api "WriteFile")]⟩)]⟩)]⟩)]

theorem namedWritingProcess_placed : namedWritingProcess.CallsPlaced where
  file e he := absurd he List.not_mem_nil
  process p hp := by
    obtain rfl := List.mem_singleton.mp hp
    exact ⟨rfl, fun e he => absurd he List.not_mem_nil⟩
  thread p hp t ht := by
    obtain rfl := List.mem_singleton.mp hp
    obtain rfl := List.mem_singleton.mp ht
    exact ⟨rfl, fun e he => absurd he List.not_mem_nil⟩
  call p hp t ht c hc := by
    obtain rfl := List.mem_singleton.mp hp
    obtain rfl := List.mem_singleton.mp ht
    obtain rfl | hc := List.mem_cons.mp hc
    · refine ⟨⟨0, 1, 1, 0, rfl, rfl⟩, fun e he _ => ?_⟩
      rw [List.mem_singleton.mp he]
      exact ⟨_, _, _, List.mem_cons_self, rfl, _, List.mem_cons_self, rfl, _, List.mem_cons_self,
        rfl⟩
    · obtain rfl := List.mem_singleton.mp hc
      refine ⟨⟨0, 1, 1, 1, rfl, rfl⟩, fun e he _ => ?_⟩
      rw [List.mem_singleton.mp he]
      exact ⟨_, _, _, List.mem_cons_self, rfl, _, List.mem_cons_self, rfl, _,
        List.mem_cons_of_mem _ List.mem_cons_self, rfl⟩

theorem ResultDocument.evidenced_of_any {capabilities : MatchResults} (name : String) {a : Address}
    (h : ((capabilities.get? name).getD []).any
      (fun r => r.2.nodes.any fun t => decide (a ∈ t.locations)) = true) :
    Evidenced capabilities a := by
  obtain ⟨r, hr, h⟩ := List.any_eq_true.mp h
  obtain ⟨t, ht, ha⟩ := List.any_eq_true.mp h
  cases hres : capabilities.get? name with
  | none =>
    rw [hres] at hr
    exact absurd hr List.not_mem_nil
  | some res =>
    rw [hres] at hr
    exact ⟨name, res, hres, r, hr, t, ht, of_decide_eq_true ha⟩

theorem computeDynamicLayout_complete_writing :
    ∃ set caps, @MatchingRuleSet.new .empty openThenWrite = .ok set ∧
      @findDynamicCapabilities .empty set namedWritingProcess.unnamed .insertion = .ok caps ∧
      ∃ p thread, p ∈ namedWritingProcess.processes.entries ∧ p.1 = .process 0 1 ∧
        (ResultDocument.computeDynamicLayout .insertion namedWritingProcess caps.results).Lists
          (.process 0 1) thread (.call 0 1 1 1) ∧
        ResultDocument.renderThread
            (ResultDocument.computeDynamicLayout .insertion namedWritingProcess caps.results)
            (ResultDocument.callThreadAddr (.from (.call 0 1 1 1))) =
          p.2.name ++ String.singleton '{' ++ "pid:" ++ toString (1 : UInt32).toNat ++ ",tid:" ++
            toString (1 : UInt32).toNat ++ String.singleton '}' := by
  refine ⟨_, _, rfl, rfl, ?_⟩
  refine (@computeDynamicLayout_complete .empty .empty openThenWrite _ rfl namedWritingProcess
    .insertion _ rfl .insertion).2 namedWritingProcess_placed 0 1 1 1 ?_
  exact ResultDocument.evidenced_of_any "open then write" rfl

end CapaX
