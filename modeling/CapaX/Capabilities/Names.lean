import CapaX.Capabilities.Order
import CapaX.Rules.Acceptance

/-
  The names extraction generates. A subscope is numbered within its rule, and its name appends the
  number to the rule's: the name of every extracted rule is the given name with a path of numbers
  behind it (`Node.subscopePaths`, read off the unextracted body). `expandAndExtract` yields
  exactly these names (`expandAndExtract_names`). A number holds no slash, so two of the names are
  equal only when one of them is a given name: the expanded names are distinct, and the extracted
  rules are found under them, exactly when the given names and namespaces keep clear of the
  generated ones (`expandAndExtract_names_iff`).
-/

namespace CapaX

open Collections Node

/-! ## Numbering -/

mutual

/-- The subscopes of a body as paths of numbers, outermost first. A subscope is numbered when it
    is met, at the `root` it stays in place and what is below it is numbered; a numbered subscope
    starts a numbering of its own. `k` is the last number used. -/
def numberSubscopes : Bool → Node → Nat → List (List Nat) × Nat
  | true, ⟨.subscope _ body, _⟩, k => numberSubscopes false body k
  | false, ⟨.subscope _ body, _⟩, k =>
    ([k + 1] :: (numberSubscopes true body 0).1.map (List.cons (k + 1)), k + 1)
  | _, ⟨.and children, _⟩, k => numberAll children k
  | _, ⟨.or children, _⟩, k => numberAll children k
  | _, ⟨.some _ children, _⟩, k => numberAll children k
  | _, ⟨.not child, _⟩, k => numberSubscopes false child k
  | _, ⟨.range _ _ _, _⟩, k => ([], k)
  | _, ⟨.leaf _, _⟩, k => ([], k)

def numberAll : List Node → Nat → List (List Nat) × Nat
  | [], k => ([], k)
  | c :: cs, k =>
    let (ps, k) := numberSubscopes false c k
    let (qs, k) := numberAll cs k
    (ps ++ qs, k)

end

def Node.subscopePaths (body : Node) : List (List Nat) := (numberSubscopes true body 0).1

/-- The name at a path: every number is appended with a slash. -/
def nameAt (name : String) (path : List Nat) : String := path.foldl subscopeName name

/-- The names the subscopes of a rule are extracted under. -/
def Rule.generatedNames (rule : Rule) : List String :=
  rule.body.subscopePaths.map (nameAt rule.name)

/-- No rule of the list and no namespace prefix is spelled like the name of a subscope. -/
def NamesFree (rules : List Rule) : Prop :=
  ∀ r ∈ rules, ∀ n ∈ r.generatedNames, (∀ a ∈ rules, a.name ≠ n) ∧ ∀ a ∈ rules, n ∉ a.prefixes

instance (rules : List Rule) : Decidable (NamesFree rules) :=
  inferInstanceAs (Decidable (∀ r ∈ rules, ∀ n ∈ r.generatedNames,
    (∀ a ∈ rules, a.name ≠ n) ∧ ∀ a ∈ rules, n ∉ a.prefixes))

/-! ## Paths -/

/-- A list of paths whose first numbers lie above `k` and not above `k'`, each path once. -/
structure Numbered (k : Nat) (r : List (List Nat) × Nat) : Prop where
  le : k ≤ r.2
  nodup : r.1.Nodup
  head : ∀ p ∈ r.1, ∃ i t, p = i :: t ∧ k < i ∧ i ≤ r.2

theorem Numbered.nil (k : Nat) : Numbered k ([], k) :=
  ⟨Nat.le_refl k, List.nodup_nil, fun _ h => absurd h List.not_mem_nil⟩

theorem Numbered.append {k m k' : Nat} {ps qs : List (List Nat)} (h : Numbered k (ps, m))
    (h' : Numbered m (qs, k')) : Numbered k (ps ++ qs, k') := by
  have hle := h.le
  have hle' := h'.le
  refine ⟨Nat.le_trans hle hle', List.nodup_append.mpr ⟨h.nodup, h'.nodup, ?_⟩, ?_⟩
  · intro p hp q hq hpq
    obtain ⟨i, t, rfl, _, hi⟩ := h.head p hp
    obtain ⟨j, u, rfl, hj, _⟩ := h'.head q hq
    obtain ⟨rfl, _⟩ := List.cons.inj hpq
    dsimp only at hi
    omega
  · intro p hp
    dsimp only at hle hle' ⊢
    rcases List.mem_append.mp hp with hp | hp
    · obtain ⟨i, t, rfl, h1, h2⟩ := h.head p hp
      exact ⟨i, t, rfl, h1, Nat.le_trans h2 hle'⟩
    · obtain ⟨i, t, rfl, h1, h2⟩ := h'.head p hp
      exact ⟨i, t, rfl, Nat.lt_of_le_of_lt hle h1, h2⟩

theorem numberAll_numbered {cs : List Node}
    (ih : ∀ c ∈ cs, ∀ root k, Numbered k (numberSubscopes root c k)) (k : Nat) :
    Numbered k (numberAll cs k) := by
  induction cs generalizing k with
  | nil => exact .nil k
  | cons c cs ih' =>
    exact (ih c List.mem_cons_self false k).append
      (ih' (fun x hx => ih x (List.mem_cons_of_mem _ hx)) _)

theorem numberSubscopes_numbered (n : Node) (root : Bool) (k : Nat) :
    Numbered k (numberSubscopes root n k) := by
  induction n using Node.induct generalizing root k with
  | and cs d ih | or cs d ih | some _ cs d ih =>
    rw [numberSubscopes]
    exact numberAll_numbered ih k
  | not c d ih =>
    rw [numberSubscopes]
    exact ih false k
  | subscope s b d ih =>
    cases root with
    | true =>
      rw [numberSubscopes]
      exact ih false k
    | false =>
      have hb := ih true 0
      rw [numberSubscopes]
      refine ⟨Nat.le_succ k, List.nodup_cons.mpr ⟨?_, ?_⟩, ?_⟩
      · intro hmem
        obtain ⟨p, hp, he⟩ := List.mem_map.mp hmem
        obtain ⟨i, t, rfl, _⟩ := hb.head p hp
        cases he
      · exact hb.nodup.map (List.cons_injective)
      · intro p hp
        rcases List.mem_cons.mp hp with rfl | hp
        · exact ⟨k + 1, [], rfl, Nat.lt_succ_self k, Nat.le_refl _⟩
        · obtain ⟨q, _, rfl⟩ := List.mem_map.mp hp
          exact ⟨k + 1, q, rfl, Nat.lt_succ_self k, Nat.le_refl _⟩
  | range f min max d | leaf f d =>
    rw [numberSubscopes]
    exact .nil k

theorem subscopePaths_nodup (n : Node) : ([] :: n.subscopePaths).Nodup := by
  have h := numberSubscopes_numbered n true 0
  refine List.nodup_cons.mpr ⟨fun hmem => ?_, h.nodup⟩
  obtain ⟨i, t, he, _⟩ := h.head [] hmem
  cases he

/-! ## Paths and extraction -/

/-- The paths of a list of outermost subscopes, numbered from `k + 1`. -/
def pathsFrom (k : Nat) : List (Scope × Node) → List (List Nat)
  | [] => []
  | e :: es => ([k + 1] :: e.2.subscopePaths.map (List.cons (k + 1))) ++ pathsFrom (k + 1) es

theorem pathsFrom_append (k : Nat) (es fs : List (Scope × Node)) :
    pathsFrom k (es ++ fs) = pathsFrom k es ++ pathsFrom (k + es.length) fs := by
  induction es generalizing k with
  | nil => rfl
  | cons e es ih =>
    rw [List.cons_append, pathsFrom, ih, pathsFrom, List.append_assoc, List.length_cons,
      Nat.add_assoc, Nat.add_comm 1]

theorem numberAll_eq {cs : List Node}
    (ih : ∀ c ∈ cs, ∀ k, numberSubscopes false c k =
      (pathsFrom k c.topSubscopes, k + c.topSubscopes.length)) (k : Nat) :
    numberAll cs k = (pathsFrom k (topSubscopesAll cs), k + (topSubscopesAll cs).length) := by
  induction cs generalizing k with
  | nil => rfl
  | cons c cs ih' =>
    have ih' := ih' fun x hx => ih x (List.mem_cons_of_mem _ hx)
    rw [numberAll, ih c List.mem_cons_self, topSubscopesAll, pathsFrom_append, List.length_append,
      ← Nat.add_assoc]
    show (_ ++ (numberAll cs (k + c.topSubscopes.length)).1,
      (numberAll cs (k + c.topSubscopes.length)).2) = _
    rw [ih']

/-- Below the root, the numbering is that of the outermost subscopes. -/
theorem numberSubscopes_eq (n : Node) (k : Nat) : numberSubscopes false n k =
    (pathsFrom k n.topSubscopes, k + n.topSubscopes.length) := by
  induction n using Node.induct generalizing k with
  | and cs d ih | or cs d ih | some _ cs d ih =>
    rw [numberSubscopes, topSubscopes]
    exact numberAll_eq ih k
  | not c d ih =>
    rw [numberSubscopes, topSubscopes]
    exact ih k
  | subscope s b d ih =>
    rw [numberSubscopes, topSubscopes, pathsFrom, pathsFrom, List.append_nil]
    rfl
  | range f min max d | leaf f d => rfl

theorem subscopePaths_eq (n : Node) : n.subscopePaths = pathsFrom 0 n.inner.topSubscopes := by
  have h : numberSubscopes true n 0 = numberSubscopes false n.inner 0 := by
    obtain ⟨stmt, d⟩ := n
    cases stmt <;> rw [numberSubscopes] <;> rfl
  rw [subscopePaths, h, numberSubscopes_eq]

theorem mem_pathsFrom {k : Nat} {es : List (Scope × Node)} {i : Nat} {p : List Nat} :
    i :: p ∈ pathsFrom k es ↔
      ∃ e, k < i ∧ es[i - k - 1]? = some e ∧ (p = [] ∨ p ∈ e.2.subscopePaths) := by
  induction es generalizing k with
  | nil => simp [pathsFrom]
  | cons e es ih =>
    rw [pathsFrom, List.mem_append, ih, List.mem_cons, List.mem_map]
    by_cases hi : i = k + 1
    · subst hi
      have hidx : k + 1 - k - 1 = 0 := by omega
      rw [hidx]
      simp
    · have hcons : ¬ (i :: p = [k + 1] ∨ ∃ q ∈ e.2.subscopePaths, (k + 1) :: q = i :: p) := by
        rintro (h | ⟨q, _, h⟩)
        · exact hi (List.cons.inj h).1
        · exact hi (List.cons.inj h).1.symm
      rw [or_iff_right hcons]
      refine exists_congr fun f => ?_
      by_cases hki : k + 1 < i
      · have hidx : i - k - 1 = (i - (k + 1) - 1) + 1 := by omega
        rw [hidx, List.getElem?_cons_succ]
        simp only [hki, true_and, show k < i by omega]
      · exact iff_of_false (fun h => hki h.1) fun h => by omega

/-- Leaving out the last number of a path leads to the subscope around it. -/
theorem subscopePaths_init {n : Node} {p : List Nat} {i : Nat} (hp : p ≠ [])
    (h : p ++ [i] ∈ n.subscopePaths) : p ∈ n.subscopePaths := by
  induction p generalizing n with
  | nil => exact absurd rfl hp
  | cons j q ih =>
    rw [subscopePaths_eq, List.cons_append, mem_pathsFrom] at h
    obtain ⟨e, hj, he, h⟩ := h
    rw [subscopePaths_eq, mem_pathsFrom]
    refine ⟨e, hj, he, ?_⟩
    rcases h with h | h
    · exact absurd h (List.append_ne_nil_of_right_ne_nil q (by simp))
    · by_cases hq : q = []
      · exact Or.inl hq
      · exact Or.inr (ih hq h)

/-! ## Names -/

theorem slash_inj {p q r s : List Char} (hr : '/' ∉ r) (hs : '/' ∉ s)
    (h : p ++ '/' :: r = q ++ '/' :: s) : p = q ∧ r = s := by
  rcases (slash_iff hr).mp ⟨s, h⟩ with rfl | ⟨t, rfl⟩
  · exact ⟨rfl, (List.cons.inj (List.append_cancel_left h)).2⟩
  · rw [List.append_assoc] at h
    have htail : t ++ '/' :: r = s := (List.cons.inj (List.append_cancel_left h)).2
    exact absurd (htail ▸ List.mem_append_right t List.mem_cons_self) hs

theorem toList_subscopeName (name : String) (k : Nat) :
    (subscopeName name k).toList = name.toList ++ '/' :: Nat.toDigits 10 k := by
  have h : subscopeName name k = name ++ "/" ++ k.repr := by
    rw [subscopeName]
    simp [ToString.toString, String.append_assoc]
  rw [h, String.toList_append, String.toList_append, Nat.toList_repr, List.append_assoc]
  rfl

theorem subscopeName_inj {a b : String} {i j : Nat} (h : subscopeName a i = subscopeName b j) :
    a = b ∧ i = j := by
  have hdigits : ∀ k : Nat, '/' ∉ Nat.toDigits 10 k := by
    intro k hmem
    have hd := Nat.isDigit_of_mem_toDigits (by decide) (by decide) hmem
    cases hd
  have hl := congrArg String.toList h
  rw [toList_subscopeName, toList_subscopeName] at hl
  obtain ⟨hname, hk⟩ := slash_inj (hdigits i) (hdigits j) hl
  refine ⟨String.toList_inj.mp hname, ?_⟩
  rw [← Nat.ofDigitChars_ten_toDigits (n := i), hk, Nat.ofDigitChars_ten_toDigits]

theorem nameAt_concat (name : String) (p : List Nat) (i : Nat) :
    nameAt name (p ++ [i]) = subscopeName (nameAt name p) i := by
  rw [nameAt, List.foldl_append]
  rfl

section

variable {rules : List Rule}

/-- Where the given names keep clear of the generated ones, a name determines the rule and the
    path. Equal names end in equal numbers, so the paths are stripped until one of them is empty,
    and then the other is, or its name is a given one. -/
theorem nameAt_inj (hfree : ∀ r ∈ rules, ∀ n ∈ r.generatedNames, ∀ a ∈ rules, a.name ≠ n)
    {a b : Rule} (ha : a ∈ rules) (hb : b ∈ rules) {p q : List Nat}
    (hp : p ∈ [] :: a.body.subscopePaths) (hq : q ∈ [] :: b.body.subscopePaths)
    (he : nameAt a.name p = nameAt b.name q) : a.name = b.name ∧ p = q := by
  have hgiven : ∀ {r g : Rule} {t : List Nat} {i : Nat}, r ∈ rules → g ∈ rules →
      t ++ [i] ∈ [] :: r.body.subscopePaths → nameAt g.name [] = nameAt r.name (t ++ [i]) →
      False := by
    intro r g t i hr hg ht he
    rcases List.mem_cons.mp ht with hnil | ht
    · exact List.append_ne_nil_of_right_ne_nil t (by simp) hnil
    · exact hfree r hr _ (List.mem_map.mpr ⟨_, ht, rfl⟩) g hg he
  have hinit : ∀ {r : Rule} {t : List Nat} {i : Nat}, t ++ [i] ∈ [] :: r.body.subscopePaths →
      t ∈ [] :: r.body.subscopePaths := by
    intro r t i ht
    by_cases hnil : t = []
    · exact hnil ▸ List.mem_cons_self
    · rcases List.mem_cons.mp ht with h | ht
      · exact absurd h (List.append_ne_nil_of_right_ne_nil t (by simp))
      · exact List.mem_cons_of_mem _ (subscopePaths_init hnil ht)
  induction p using List.reverseRecOn generalizing q with
  | nil =>
    rcases List.eq_nil_or_concat' q with rfl | ⟨t, i, rfl⟩
    · exact ⟨he, rfl⟩
    · exact (hgiven hb ha hq he).elim
  | append_singleton p i ih =>
    rcases List.eq_nil_or_concat' q with rfl | ⟨t, j, rfl⟩
    · exact (hgiven ha hb hp he.symm).elim
    · rw [nameAt_concat, nameAt_concat] at he
      obtain ⟨hparent, rfl⟩ := subscopeName_inj he
      obtain ⟨hname, rfl⟩ := ih (hinit hp) (hinit hq) hparent
      exact ⟨hname, rfl⟩

/-- The name of a rule, and those its subscopes are extracted under. -/
def Rule.allNames (rule : Rule) : List String := ([] :: rule.body.subscopePaths).map (nameAt rule.name)

theorem Rule.allNames_eq (rule : Rule) : rule.allNames = rule.name :: rule.generatedNames := rfl

theorem allNames_nodup (hn : (rules.map (·.name)).Nodup)
    (hfree : ∀ r ∈ rules, ∀ n ∈ r.generatedNames, ∀ a ∈ rules, a.name ≠ n) :
    (rules.flatMap Rule.allNames).Nodup := by
  refine List.nodup_flatMap.mpr ⟨fun a ha => ?_, ?_⟩
  · refine List.Nodup.map_on (fun p hp q hq he => ?_) (subscopePaths_nodup a.body)
    exact (nameAt_inj hfree ha ha hp hq he).2
  · refine (List.pairwise_map.mp hn).imp_of_mem fun {a b} ha hb hne => ?_
    intro n hna hnb
    obtain ⟨p, hp, rfl⟩ := List.mem_map.mp hna
    obtain ⟨q, hq, he⟩ := List.mem_map.mp hnb
    exact hne (nameAt_inj hfree ha hb hp hq he.symm).1

end

/-! ## The names of the expanded list -/

section

variable [ComDatabase]

theorem expandComChildren_numbers {cs : List Node}
    (ih : ∀ c ∈ cs, ∀ c', expandComNode c = .ok c' →
      ∀ root k, numberSubscopes root c' k = numberSubscopes root c k)
    {cs' : List Node} (h : expandComChildren cs = .ok cs') (k : Nat) :
    numberAll cs' k = numberAll cs k := by
  induction cs generalizing cs' k with
  | nil =>
    obtain rfl := Except.ok.inj h
    rfl
  | cons c cs ih' =>
    obtain ⟨c', hc, h⟩ := Control.bind_eq_ok.mp h
    obtain ⟨cs1, hcs, h⟩ := Control.bind_eq_ok.mp h
    obtain rfl := Except.ok.inj h
    have hall := fun k => ih' (fun x hx => ih x (List.mem_cons_of_mem _ hx)) hcs k
    rw [numberAll, numberAll, ih c List.mem_cons_self c' hc]
    simp only [hall]

omit [ComDatabase] in
/-- The leaves a COM name is replaced by hold no subscope. -/
theorem numberAll_leaves {cs : List Node}
    (h : ∀ c ∈ cs, ∃ f d, c = ⟨.leaf f, d⟩) (k : Nat) : numberAll cs k = ([], k) := by
  induction cs generalizing k with
  | nil => rfl
  | cons c cs ih =>
    obtain ⟨f, d, rfl⟩ := h c List.mem_cons_self
    rw [numberAll, numberSubscopes]
    simp only [ih fun x hx => h x (List.mem_cons_of_mem _ hx)]
    rfl

/-- COM expansion leaves the subscopes and their numbers alone. -/
theorem expandComNode_numbers {n n' : Node} (h : expandComNode n = .ok n') (root : Bool) (k : Nat) :
    numberSubscopes root n' k = numberSubscopes root n k := by
  induction n using Node.induct generalizing n' root k with
  | and cs d ih | or cs d ih | some _ cs d ih =>
    rw [expandComNode] at h
    obtain ⟨cs', hcs, h⟩ := Control.bind_eq_ok.mp h
    obtain rfl := Except.ok.inj h
    rw [numberSubscopes, numberSubscopes]
    exact expandComChildren_numbers (fun c hc c' hc' root k => ih c hc hc' root k) hcs k
  | not c d ih =>
    rw [expandComNode] at h
    obtain ⟨c', hc, h⟩ := Control.bind_eq_ok.mp h
    obtain rfl := Except.ok.inj h
    rw [numberSubscopes, numberSubscopes, ih hc]
  | subscope s b d ih =>
    rw [expandComNode] at h
    obtain ⟨b', hb, h⟩ := Control.bind_eq_ok.mp h
    obtain rfl := Except.ok.inj h
    cases root with
    | true => rw [numberSubscopes, numberSubscopes, ih hb]
    | false => rw [numberSubscopes, numberSubscopes, ih hb]
  | range f min max d =>
    rw [expandComNode] at h
    obtain rfl := Except.ok.inj h
    rfl
  | leaf f d =>
    by_cases hf : ∀ kind name, f ≠ .com kind name
    · rw [expandComNode_leaf hf] at h
      obtain rfl := Except.ok.inj h
      rfl
    · obtain ⟨kind, name, rfl⟩ : ∃ kind name, f = .com kind name := by
        by_contra hn
        exact hf fun kind name he => hn ⟨kind, name, he⟩
      obtain ⟨stmt, hs, h⟩ := Control.bind_eq_ok.mp h
      obtain ⟨children, rfl, hg⟩ := translateComFeature_ok hs
      obtain rfl := Except.ok.inj h
      rw [numberSubscopes, numberSubscopes]
      refine numberAll_leaves (fun c hc => ?_) k
      obtain ⟨d', ⟨v, rfl⟩ | ⟨v, rfl⟩⟩ := hg c hc
      · exact ⟨_, _, rfl⟩
      · exact ⟨_, _, rfl⟩

theorem Turn.paths {rule rule' : Rule} {synthetic : List Rule} {body : Node}
    (h : Turn rule rule' synthetic body) :
    rule.body.subscopePaths = pathsFrom 0 body.inner.topSubscopes := by
  rw [← subscopePaths_eq, subscopePaths, subscopePaths, expandComNode_numbers h.expanded]

/-- A turn hands the names of a rule on to the rules it extracts. -/
theorem Turn.allNames {rule rule' : Rule} {synthetic : List Rule} {body : Node}
    (h : Turn rule rule' synthetic body) :
    rule.allNames = rule.name :: synthetic.flatMap Rule.allNames := by
  have hnamed : ∀ (k : Nat) (es : List (Scope × Node)),
      (pathsFrom k es).map (nameAt rule.name) =
        ((named rule.name k es).map (syntheticOf rule.name)).flatMap Rule.allNames := by
    intro k es
    induction es generalizing k with
    | nil => rfl
    | cons e es ih =>
      rw [pathsFrom, named, List.map_append, ih, List.map_cons, List.map_cons, List.flatMap_cons,
        List.map_map]
      rfl
  rw [Rule.allNames_eq, Rule.generatedNames, h.paths, hnamed, h.synthetic_eq]

theorem extractLoop_names {fuel : Nat} {stack done es : List Rule}
    (hf : (stack.map Rule.turns).sum ≤ fuel) (h : extractLoop fuel stack done = .ok es) :
    (es.map (·.name)).Perm (done.map (·.name) ++ stack.flatMap Rule.allNames) := by
  induction fuel generalizing stack done with
  | zero =>
    cases stack with
    | nil =>
      obtain rfl : done = es := Except.ok.inj h
      rw [List.flatMap_nil, List.append_nil]
    | cons rule stack =>
      rw [List.map_cons, List.sum_cons, Rule.turns] at hf
      omega
  | succ fuel ih =>
    cases stack with
    | nil =>
      obtain rfl : done = es := Except.ok.inj h
      rw [List.flatMap_nil, List.append_nil]
    | cons rule stack =>
      obtain ⟨⟨rule', syn⟩, hr, h⟩ := Control.bind_eq_ok.mp h
      obtain ⟨body, hturn⟩ := extractRule_ok hr
      have hlt : (syn.map Rule.turns).sum < rule.turns := hturn.turns_le
      have hsum : ((syn.reverse ++ stack).map Rule.turns).sum ≤ fuel := by
        rw [List.map_cons, List.sum_cons] at hf
        rw [List.map_append, List.sum_append, List.map_reverse, List.sum_reverse]
        omega
      have hname : rule'.name = rule.name := by
        rcases hturn.rule_eq with ⟨_, rfl⟩ | ⟨_, _, _, _, rfl⟩
        · rfl
        · rfl
      have hih := ih hsum h
      rw [List.map_append, List.flatMap_append, List.append_assoc, List.map_singleton, hname] at hih
      rw [List.flatMap_cons, hturn.allNames]
      refine hih.trans (List.Perm.append_left _ ?_)
      exact List.Perm.cons _ ((List.reverse_perm syn).flatMap_right _ |>.append_right _)

/-- The names of the expanded list, each as often as it is generated. -/
theorem expandAndExtract_names {rules es : List Rule} (h : expandAndExtract rules = .ok es) :
    (es.map (·.name)).Perm (rules.flatMap Rule.allNames) := by
  obtain ⟨done, hdone, h⟩ := Control.bind_eq_ok.mp h
  obtain rfl := Except.ok.inj h
  have hsum : (rules.reverse.map Rule.turns).sum ≤ (rules.map Rule.turns).sum := by
    rw [List.map_reverse, List.sum_reverse]
  have hloop := extractLoop_names hsum hdone
  have hmap : (done.map fun rule => rule.setBody (optimizeNode rule.body)).map (·.name) =
      done.map (·.name) := by
    rw [List.map_map]
    rfl
  rw [hmap]
  exact hloop.trans ((List.reverse_perm rules).flatMap_right _)

/-! ## Extracted rules -/

variable {rules es : List Rule}

/-- The rules extracted from a rule of the list, or from an extracted one. -/
def Synthetic (rules : List Rule) (s : Rule) : Prop :=
  ∃ r r' syn, Descends rules r ∧ extractRule r = .ok (r', syn) ∧ s ∈ syn

omit [ComDatabase] in
theorem mem_named {name : String} {k : Nat} {tops : List (Scope × Node)}
    {e : String × Scope × Node} : e ∈ named name k tops ↔
      ∃ j, tops[j]? = some e.2 ∧ e.1 = subscopeName name (k + j + 1) := by
  induction tops generalizing k with
  | nil => simp [named]
  | cons t tops ih =>
    rw [named, List.mem_cons, ih]
    constructor
    · rintro (rfl | ⟨j, hj, he⟩)
      · exact ⟨0, rfl, rfl⟩
      · exact ⟨j + 1, hj, by rw [he]; congr 1; omega⟩
    · rintro ⟨j, hj, he⟩
      cases j with
      | zero => exact Or.inl (Prod.ext he (Option.some.inj hj).symm)
      | succ j => exact Or.inr ⟨j, hj, by rw [he]; congr 1; omega⟩

/-- An extracted rule is named by its number, and its paths follow that number. -/
theorem extractRule_numbered {r r' s : Rule} {syn : List Rule}
    (h : extractRule r = .ok (r', syn)) (hs : s ∈ syn) :
    ∃ i, s.name = subscopeName r.name i ∧ [i] ∈ r.body.subscopePaths ∧
      ∀ q ∈ s.body.subscopePaths, i :: q ∈ r.body.subscopePaths := by
  obtain ⟨body, hturn⟩ := extractRule_ok h
  rw [hturn.synthetic_eq] at hs
  obtain ⟨e, he, rfl⟩ := List.mem_map.mp hs
  obtain ⟨j, hj, hname⟩ := mem_named.mp he
  have hidx : 0 + j + 1 - 0 - 1 = j := by omega
  rw [hturn.paths]
  refine ⟨0 + j + 1, hname, mem_pathsFrom.mpr ⟨e.2, by omega, by rwa [hidx], Or.inl rfl⟩, ?_⟩
  exact fun q hq => mem_pathsFrom.mpr ⟨e.2, by omega, by rwa [hidx], Or.inr hq⟩

/-- A treated rule stands at a path of the given rule it descends from. -/
theorem Descends.path {r : Rule} (h : Descends rules r) : ∃ g ∈ rules, ∃ p,
    r.name = nameAt g.name p ∧ ∀ q ∈ r.body.subscopePaths, p ++ q ∈ g.body.subscopePaths := by
  induction h with
  | given h => exact ⟨_, h, [], rfl, fun q hq => hq⟩
  | synthetic _ hr hs ih =>
    obtain ⟨g, hg, p, hname, hpaths⟩ := ih
    obtain ⟨i, hi, _, hbelow⟩ := extractRule_numbered hr hs
    refine ⟨g, hg, p ++ [i], by rw [hi, hname, nameAt_concat], fun q hq => ?_⟩
    rw [List.append_assoc]
    exact hpaths _ (hbelow q hq)

theorem Synthetic.generated {s : Rule} (h : Synthetic rules s) :
    ∃ g ∈ rules, s.name ∈ g.generatedNames := by
  obtain ⟨r, r', syn, hr, hext, hs⟩ := h
  obtain ⟨g, hg, p, hname, hpaths⟩ := hr.path
  obtain ⟨i, hi, htop, _⟩ := extractRule_numbered hext hs
  refine ⟨g, hg, List.mem_map.mpr ⟨p ++ [i], hpaths _ htop, ?_⟩⟩
  rw [nameAt_concat, ← hname, hi]

/-- At every path of a treated rule a rule is extracted. -/
theorem exists_synthetic (hes : expandAndExtract rules = .ok es) {r : Rule}
    (hr : Descends rules r) {q : List Nat} (hq : q ∈ r.body.subscopePaths) :
    ∃ s, Synthetic rules s ∧ s.name = nameAt r.name q := by
  induction q generalizing r with
  | nil => exact absurd hq (List.nodup_cons.mp (subscopePaths_nodup r.body)).1
  | cons i q ih =>
    obtain ⟨r', syn, hext⟩ := (expandAndExtract_spec hes).2 r hr
    obtain ⟨body, hturn⟩ := extractRule_ok hext
    rw [hturn.paths] at hq
    obtain ⟨e, hpos, he, hq⟩ := mem_pathsFrom.mp hq
    have hs : syntheticOf r.name (subscopeName r.name i, e) ∈ syn := by
      rw [hturn.synthetic_eq]
      have hi : i = 0 + (i - 0 - 1) + 1 := by omega
      exact List.mem_map_of_mem (mem_named.mpr ⟨i - 0 - 1, he, congrArg (subscopeName r.name) hi⟩)
    rcases hq with rfl | hq
    · exact ⟨_, ⟨r, r', syn, hr, hext, hs⟩, rfl⟩
    · exact ih (r := syntheticOf r.name (subscopeName r.name i, e)) (hr.synthetic hext hs) hq

/-- The extraction keeps the names apart: the expanded names are distinct, no extracted rule is
    named like a given rule or a namespace prefix, the map by names holds every rule, and the leaf
    put in the place of a subscope stands for the rule extracted from it and for nothing else. -/
structure NamesKept (rules es : List Rule) : Prop where
  nodup : (es.map (·.name)).Nodup
  fresh : ∀ s, Synthetic rules s →
    (∀ r ∈ rules, r.name ≠ s.name) ∧ ∀ r ∈ rules, s.name ∉ r.prefixes
  kept : ∀ e ∈ es, (indexByName es).get? e.name = some e
  resolved : ∀ s, Synthetic rules s →
    referents (indexRulesByNamespace es) s.name = [s.name] ∧
      ∃ e, FinishesAs s e ∧ (indexByName es).get? s.name = some e

/-- Extraction keeps the names apart exactly when no rule and no namespace prefix is spelled like
    the name of a subscope of a rule of the list. -/
theorem expandAndExtract_names_iff {set : RuleSet} (hset : RuleSet.new rules = .ok set)
    (hes : expandAndExtract rules = .ok es) : NamesKept rules es ↔ NamesFree rules := by
  constructor
  · intro h r hr n hn
    obtain ⟨q, hq, rfl⟩ := List.mem_map.mp hn
    obtain ⟨s, hs, hname⟩ := exists_synthetic hes (.given hr) hq
    rw [← hname]
    exact h.fresh s hs
  · intro h
    have hnodup : (es.map (·.name)).Nodup :=
      (expandAndExtract_names hes).nodup_iff.mpr
        (allNames_nodup (RuleSet.new_ok hset).nodup fun r hr n hn => (h r hr n hn).1)
    have hfresh : ∀ s, Synthetic rules s →
        (∀ r ∈ rules, r.name ≠ s.name) ∧ ∀ r ∈ rules, s.name ∉ r.prefixes := by
      intro s hs
      obtain ⟨g, hg, hn⟩ := hs.generated
      exact h g hg s.name hn
    refine ⟨hnodup, hfresh, fun e he => indexByName_of_nodup hnodup he, fun s hs => ⟨?_, ?_⟩⟩
    · have hnone : ∀ e ∈ es, s.name ∉ e.prefixes := by
        intro e he hmem
        obtain ⟨r, hr, hmem, _⟩ := (expandAndExtract_prefixes hes).mp ⟨e, he, hmem, rfl⟩
        exact (hfresh s hs).2 r hr hmem
      have hget : (indexRulesByNamespace es).get? s.name = none := by
        rw [indexRulesByNamespace_eq, IndexMap.get?_group, if_pos]
        refine List.eq_nil_iff_forall_not_mem.mpr fun x hx => ?_
        obtain ⟨e, he, hmem, _⟩ := mem_valuesOf_prefixes.mp hx
        exact hnone e he hmem
      rw [referents, hget, Option.getD_none]
    · obtain ⟨r, r', syn, hr, hext, hmem⟩ := hs
      have hs : Descends rules s := .synthetic hr hext hmem
      obtain ⟨s', syn', hext'⟩ := (expandAndExtract_spec hes).2 s hs
      have hf : FinishesAs s (s'.setBody (optimizeNode s'.body)) := ⟨s', syn', hext', rfl⟩
      have he := ((expandAndExtract_spec hes).1 _).mpr ⟨s, hs, hf⟩
      refine ⟨_, hf, ?_⟩
      rw [← hf.keeps.name]
      exact indexByName_of_nodup hnodup he

end

/-- A rule with a subscope in a subscope. -/
def nestedSubscopes : List Rule :=
  [.minimal "a" (some "n") ⟨some .file, none⟩
    ⟨.and [⟨.subscope .function
      ⟨.or [⟨.subscope .basicBlock ⟨.leaf (.api "ReadFile"), none⟩, none⟩], none⟩, none⟩], none⟩]

theorem expandAndExtract_names_iff_nestedSubscopes : ∃ es,
    @expandAndExtract .empty nestedSubscopes = .ok es ∧ es.map (·.name) = ["a", "a/1", "a/1/1"] ∧
      @NamesKept .empty nestedSubscopes es := by
  refine ⟨_, rfl, by decide, ?_⟩
  exact (@expandAndExtract_names_iff .empty nestedSubscopes _ _ rfl rfl).mpr (by decide)

/-- The subscope of `a` is extracted under the name of the rule `a/1`: an accepted list whose
    expanded list has two rules of one name. -/
theorem shadowed_names_collide : ∃ set es, RuleSet.new shadowed = .ok set ∧
    @expandAndExtract .empty shadowed = .ok es ∧ ¬ (es.map (·.name)).Nodup := by
  refine ⟨_, _, rfl, rfl, ?_⟩
  decide

end CapaX
