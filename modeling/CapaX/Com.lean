import CapaX.Control.Except
import CapaX.Rules.Rule

/-
  COM features (`com.rs`): a `com/class` or `com/interface` leaf stands for any of the GUIDs its
  name has, each as a string and as 16 bytes. The two name databases are data files of the
  repository, tens of thousands of lines of GUIDs; `ComDatabase` stands for them.
-/

namespace CapaX

/-- The GUIDs of a name, `load_com_database(kind).get(name)`. -/
class ComDatabase where
  guids : ComKind → String → Option (List String)

/-- A database without names, for rules without COM features. -/
@[reducible] def ComDatabase.empty : ComDatabase := ⟨fun _ _ => none⟩

def ComKind.symbolPrefix : ComKind → String
  | class_ => "CLSID_"
  | interface => "IID_"

def ComKind.kindName : ComKind → String
  | class_ => "class"
  | interface => "interface"

/-- `guid_to_bytes`: the first three fields are byte-swapped. -/
def guidToBytes (guid : String) : Except RuleError (List UInt8) :=
  match hexDecode (guid.toList.filter fun c => decide (c ≠ '-')) with
  | some [a0, a1, a2, a3, b0, b1, c0, c1, d0, d1, d2, d3, d4, d5, d6, d7] =>
    .ok [a3, a2, a1, a0, b1, b0, c1, c0, d0, d1, d2, d3, d4, d5, d6, d7]
  | _ => .error (.invalid s!"invalid COM GUID: {guid}")

/-- The two leaves of each GUID. -/
def guidLeaves (symbol : String) : List String → Except RuleError (List Node)
  | [] => .ok []
  | guid :: rest => do
    let guidBytes ← guidToBytes guid
    let children ← guidLeaves symbol rest
    return ⟨.leaf (.string (.plain guid)), some s!"{symbol} as GUID string"⟩ ::
      ⟨.leaf (.bytes guidBytes), some s!"{symbol} as bytes"⟩ :: children

def translateComFeature [ComDatabase] (comName : String) (kind : ComKind) :
    Except RuleError (Statement Node) :=
  match (ComDatabase.guids kind comName).filter fun g => !g.isEmpty with
  | none =>
    .error (.invalid s!"'{comName}' doesn't exist in COM {kind.kindName} database")
  | some guids => do
    let children ← guidLeaves s!"{kind.symbolPrefix}{comName}" guids
    return .or children

/-- A leaf COM features expand to. -/
def IsGuidLeaf (n : Node) : Prop :=
  ∃ d, (∃ v, n = ⟨.leaf (.string (.plain v)), d⟩) ∨ ∃ v, n = ⟨.leaf (.bytes v), d⟩

theorem guidLeaves_ok {symbol : String} {guids : List String} {children : List Node}
    (h : guidLeaves symbol guids = .ok children) : ∀ c ∈ children, IsGuidLeaf c := by
  induction guids generalizing children with
  | nil =>
    obtain rfl : [] = children := Except.ok.inj h
    exact fun _ hc => absurd hc List.not_mem_nil
  | cons guid rest ih =>
    obtain ⟨bytes, _, h⟩ := Control.bind_eq_ok.mp h
    obtain ⟨children', hrest, h⟩ := Control.bind_eq_ok.mp h
    obtain rfl := Except.ok.inj h
    intro c hc
    rcases List.mem_cons.mp hc with rfl | hc
    · exact ⟨_, Or.inl ⟨guid, rfl⟩⟩
    · rcases List.mem_cons.mp hc with rfl | hc
      · exact ⟨_, Or.inr ⟨bytes, rfl⟩⟩
      · exact ih hrest c hc

/-- A COM feature becomes a disjunction of string and bytes leaves. -/
theorem translateComFeature_ok [ComDatabase] {name : String} {kind : ComKind}
    {stmt : Statement Node} (h : translateComFeature name kind = .ok stmt) :
    ∃ children, stmt = .or children ∧ ∀ c ∈ children, IsGuidLeaf c := by
  unfold translateComFeature at h
  split at h
  · cases h
  · obtain ⟨children, hc, h⟩ := Control.bind_eq_ok.mp h
    exact ⟨children, (Except.ok.inj h).symm, guidLeaves_ok hc⟩

end CapaX
