import Mathlib.Data.List.Nodup
import Mathlib.Logic.Equiv.Basic

/-
  Records written as objects and read back. A `Format` writes values of a type, which may have no
  written form for some, and reads them; `Survives` says that a value is read as it was. A record
  is made of `Fields`, each with the keys it writes and looks at: fields with different keys do not
  see each other, so a record survives exactly when each of its fields does (`survives_both`).
-/

namespace Codec

/-- Values made of lists and of objects, which list their entries. -/
class Treelike (ν : Type) where
  null : ν
  text : String → ν
  list : List ν → ν
  object : List (String × ν) → ν
  isNull : ν → Bool
  asText : ν → Option String
  asList : ν → Option (List ν)
  asObject : ν → Option (List (String × ν))
  isNull_null : isNull null = true
  asText_text (s : String) : asText (text s) = some s
  asList_list (items : List ν) : asList (list items) = some items
  asObject_object (entries : List (String × ν)) : asObject (object entries) = some entries

structure Format (ν α : Type) where
  write : α → Option ν
  read : ν → Option α

variable {ν α β : Type}

/-- What is read under another type is read as the value that stands for it. -/
theorem bind_equiv {v : Option ν} {read : ν → Option α} {e : α ≃ β} {b : β} :
    v.bind (fun v => (read v).map e) = some b ↔ v.bind read = some (e.symm b) := by
  cases v with
  | none => simp
  | some v =>
    show (read v).map e = some b ↔ read v = some (e.symm b)
    rw [Option.map_eq_some_iff]
    constructor
    · intro ⟨a, ha, hb⟩
      rw [ha, ← hb, e.symm_apply_apply]
    · intro h
      exact ⟨_, h, e.apply_symm_apply b⟩

namespace Format

def Survives (f : Format ν α) (a : α) : Prop := (f.write a).bind f.read = some a

def text [Treelike ν] : Format ν String := ⟨fun s => some (Treelike.text s), Treelike.asText⟩

def list [Treelike ν] (f : Format ν α) : Format ν (List α) where
  write as := (as.mapM f.write).map Treelike.list
  read v := (Treelike.asList v).bind fun items => items.mapM f.read

/-- A value with a key. -/
def entry {κ : Type} (f : Format ν α) : Format (κ × ν) (κ × α) where
  write e := (f.write e.2).map fun v => (e.1, v)
  read e := (f.read e.2).map fun a => (e.1, a)

/-- The same values under another type. -/
def via (f : Format ν α) (e : α ≃ β) : Format ν β where
  write b := f.write (e.symm b)
  read v := (f.read v).map e

theorem survives_text [Treelike ν] (s : String) : (text : Format ν String).Survives s :=
  Treelike.asText_text s

theorem survives_via {f : Format ν α} {e : α ≃ β} {b : β} :
    (f.via e).Survives b ↔ f.Survives (e.symm b) :=
  bind_equiv

theorem survives_cons {f : Format ν α} {a : α} {as : List α} :
    ((a :: as).mapM f.write).bind (fun vs => vs.mapM f.read) = some (a :: as) ↔
      f.Survives a ∧ (as.mapM f.write).bind (fun vs => vs.mapM f.read) = some as := by
  unfold Survives
  rw [List.mapM_cons]
  cases hw : f.write a with
  | none => simp
  | some v =>
    cases hws : as.mapM f.write with
    | none => simp
    | some vs =>
      cases hr : f.read v with
      | none => simp [hr]
      | some a' =>
        cases hrs : vs.mapM f.read with
        | none => simp [hr, hrs]
        | some as' => simp [hr, hrs]

theorem survives_items {f : Format ν α} {as : List α} :
    (as.mapM f.write).bind (fun vs => vs.mapM f.read) = some as ↔ ∀ a ∈ as, f.Survives a := by
  induction as with
  | nil => simp
  | cons a as ih =>
    rw [List.forall_mem_cons]
    exact survives_cons.trans (and_congr_right fun _ => ih)

/-- A list survives exactly when its items do. -/
theorem survives_list [Treelike ν] {f : Format ν α} {as : List α} :
    f.list.Survives as ↔ ∀ a ∈ as, f.Survives a := by
  rw [← survives_items]
  show ((as.mapM f.write).map Treelike.list).bind
    (fun v => (Treelike.asList v).bind fun items => items.mapM f.read) = _ ↔ _
  cases as.mapM f.write with
  | none => exact Iff.rfl
  | some vs =>
    show (Treelike.asList (Treelike.list vs)).bind _ = _ ↔ _
    rw [Treelike.asList_list]

/-- Keys stay as they are. -/
theorem keys_of_mapM {κ : Type} {f : α → Option β} {es : List (κ × α)} {es' : List (κ × β)}
    (h : es.mapM (fun e => (f e.2).map fun b => (e.1, b)) = some es') :
    es'.map (·.1) = es.map (·.1) := by
  induction es generalizing es' with
  | nil =>
    obtain rfl := Option.some.inj h
    rfl
  | cons e es ih =>
    rw [List.mapM_cons] at h
    obtain ⟨e', he, h⟩ := Option.bind_eq_some_iff.mp h
    obtain ⟨b, _, rfl⟩ := Option.map_eq_some_iff.mp he
    obtain ⟨rest, hrest, h⟩ := Option.bind_eq_some_iff.mp h
    obtain rfl := Option.some.inj h
    rw [List.map_cons, List.map_cons, ih hrest]

theorem survives_entry {κ : Type} {f : Format ν α} {e : κ × α} :
    f.entry.Survives e ↔ f.Survives e.2 := by
  show ((f.write e.2).map fun v => (e.1, v)).bind
    (fun w => (f.read w.2).map fun a => (w.1, a)) = some e ↔ (f.write e.2).bind f.read = some e.2
  cases f.write e.2 with
  | none => exact iff_of_false (by simp) (by simp)
  | some v =>
    show (f.read v).map (fun a => (e.1, a)) = some e ↔ f.read v = some e.2
    rw [Option.map_eq_some_iff]
    constructor
    · intro ⟨a, ha, he⟩
      rw [ha, ← he]
    · intro h
      exact ⟨e.2, h, rfl⟩

end Format

/-! ## Fields -/

/-- The value of a key, when there is one entry of it. -/
def lookup (entries : List (String × ν)) (key : String) : Option ν :=
  match entries.filter fun e => decide (e.1 = key) with
  | [e] => some e.2
  | _ => none

/-- Some fields of a record: the entries they write, under their keys, each once, and how they are
    read, by looking at those keys only. -/
structure Fields (ν α : Type) where
  keys : List String
  write : α → Option (List (String × ν))
  read : List (String × ν) → Option α
  keys_of_write {a : α} {entries : List (String × ν)} (h : write a = some entries) :
    ∀ e ∈ entries, e.1 ∈ keys
  nodup_of_write {a : α} {entries : List (String × ν)} (h : write a = some entries) :
    (entries.map (·.1)).Nodup
  read_own (entries : List (String × ν)) :
    read (entries.filter fun e => decide (e.1 ∈ keys)) = read entries

namespace Fields

def Survives (f : Fields ν α) (a : α) : Prop := (f.write a).bind f.read = some a

theorem filter_key {keys : List String} {key : String} (h : key ∈ keys)
    (entries : List (String × ν)) :
    ((entries.filter fun e => decide (e.1 ∈ keys)).filter fun e => decide (e.1 = key)) =
      entries.filter fun e => decide (e.1 = key) := by
  rw [List.filter_filter]
  refine List.filter_congr fun e _ => ?_
  by_cases heq : e.1 = key
  · simp [heq, h]
  · simp [heq]

/-- A field that every record has. -/
def required (key : String) (f : Format ν α) : Fields ν α where
  keys := [key]
  write a := (f.write a).map fun v => [(key, v)]
  read entries := (lookup entries key).bind f.read
  keys_of_write h e he := by
    obtain ⟨v, _, rfl⟩ := Option.map_eq_some_iff.mp h
    obtain rfl := List.mem_singleton.mp he
    exact List.mem_singleton_self key
  nodup_of_write h := by
    obtain ⟨v, _, rfl⟩ := Option.map_eq_some_iff.mp h
    exact List.nodup_singleton key
  read_own entries := by
    unfold lookup
    rw [filter_key (List.mem_singleton_self key)]

/-- A field that is left out where it has no value; `null` is none either. -/
def optional [Treelike ν] (key : String) (f : Format ν α) : Fields ν (Option α) where
  keys := [key]
  write
    | none => some []
    | some a => (f.write a).map fun v => [(key, v)]
  read entries :=
    match entries.filter fun e => decide (e.1 = key) with
    | [] => some none
    | [e] => if Treelike.isNull e.2 then some none else (f.read e.2).map some
    | _ => none
  keys_of_write {a} {entries} h e he := by
    cases a with
    | none =>
      obtain rfl := Option.some.inj h
      exact absurd he List.not_mem_nil
    | some a =>
      obtain ⟨v, _, rfl⟩ := Option.map_eq_some_iff.mp h
      obtain rfl := List.mem_singleton.mp he
      exact List.mem_singleton_self key
  nodup_of_write {a} {entries} h := by
    cases a with
    | none =>
      obtain rfl := Option.some.inj h
      exact List.nodup_nil
    | some a =>
      obtain ⟨v, _, rfl⟩ := Option.map_eq_some_iff.mp h
      exact List.nodup_singleton key
  read_own entries := by
    rw [filter_key (List.mem_singleton_self key)]

theorem filter_append_left {f : Fields ν α} {g : Fields ν β} (h : ∀ k ∈ f.keys, k ∉ g.keys) {a : α}
    {b : β} {es es' : List (String × ν)} (hf : f.write a = some es) (hg : g.write b = some es') :
    (es ++ es').filter (fun e => decide (e.1 ∈ f.keys)) = es := by
  rw [List.filter_append,
    List.filter_eq_self.mpr fun e he => decide_eq_true (f.keys_of_write hf e he),
    List.filter_eq_nil_iff.mpr fun e he hin =>
      h _ (of_decide_eq_true hin) (g.keys_of_write hg e he), List.append_nil]

theorem filter_append_right {f : Fields ν α} {g : Fields ν β} (h : ∀ k ∈ f.keys, k ∉ g.keys)
    {a : α} {b : β} {es es' : List (String × ν)} (hf : f.write a = some es)
    (hg : g.write b = some es') : (es ++ es').filter (fun e => decide (e.1 ∈ g.keys)) = es' := by
  rw [List.filter_append, List.filter_eq_nil_iff.mpr fun e he hin =>
      h _ (f.keys_of_write hf e he) (of_decide_eq_true hin),
    List.filter_eq_self.mpr fun e he => decide_eq_true (g.keys_of_write hg e he), List.nil_append]

/-- Two groups of fields with different keys. -/
def both (f : Fields ν α) (g : Fields ν β) (h : ∀ k ∈ f.keys, k ∉ g.keys) : Fields ν (α × β) where
  keys := f.keys ++ g.keys
  write p := (f.write p.1).bind fun es => (g.write p.2).map fun es' => es ++ es'
  read entries := (f.read entries).bind fun a => (g.read entries).map fun b => (a, b)
  keys_of_write {p} {entries} hw e he := by
    obtain ⟨es, hf, hw⟩ := Option.bind_eq_some_iff.mp hw
    obtain ⟨es', hg, rfl⟩ := Option.map_eq_some_iff.mp hw
    exact List.mem_append.mpr ((List.mem_append.mp he).imp (f.keys_of_write hf e)
      (g.keys_of_write hg e))
  nodup_of_write {p} {entries} hw := by
    obtain ⟨es, hf, hw⟩ := Option.bind_eq_some_iff.mp hw
    obtain ⟨es', hg, rfl⟩ := Option.map_eq_some_iff.mp hw
    rw [List.map_append]
    refine List.Nodup.append (f.nodup_of_write hf) (g.nodup_of_write hg) fun k hk hk' => ?_
    obtain ⟨e, he, rfl⟩ := List.mem_map.mp hk
    obtain ⟨e', he', heq⟩ := List.mem_map.mp hk'
    exact h _ (f.keys_of_write hf e he) (heq ▸ g.keys_of_write hg e' he')
  read_own entries := by
    have hf : f.read (entries.filter fun e => decide (e.1 ∈ f.keys ++ g.keys)) =
        f.read entries := by
      rw [← f.read_own, List.filter_filter, ← f.read_own entries]
      exact congrArg f.read (List.filter_congr fun e _ => by simp; tauto)
    have hg : g.read (entries.filter fun e => decide (e.1 ∈ f.keys ++ g.keys)) =
        g.read entries := by
      rw [← g.read_own, List.filter_filter, ← g.read_own entries]
      exact congrArg g.read (List.filter_congr fun e _ => by simp; tauto)
    rw [hf, hg]

/-- A group of fields as the record it makes. -/
def via (f : Fields ν α) (e : α ≃ β) : Fields ν β where
  keys := f.keys
  write b := f.write (e.symm b)
  read entries := (f.read entries).map e
  keys_of_write h := f.keys_of_write h
  nodup_of_write h := f.nodup_of_write h
  read_own entries := by rw [f.read_own]

/-! ## What survives -/

theorem lookup_singleton (key : String) (v : ν) : lookup [(key, v)] key = some v := by
  simp [lookup]

theorem survives_required {key : String} {f : Format ν α} {a : α} :
    (required key f).Survives a ↔ f.Survives a := by
  show ((f.write a).map fun v => [(key, v)]).bind
    (fun entries => (lookup entries key).bind f.read) = some a ↔ (f.write a).bind f.read = some a
  cases f.write a with
  | none => exact Iff.rfl
  | some v =>
    show (lookup [(key, v)] key).bind f.read = some a ↔ _
    rw [lookup_singleton]

theorem survives_optional [Treelike ν] {key : String} {f : Format ν α}
    (hnull : ∀ a v, f.write a = some v → Treelike.isNull v = false) {o : Option α} :
    (optional key f).Survives o ↔ ∀ a ∈ o, f.Survives a := by
  unfold Survives Format.Survives optional
  cases o with
  | none => simp
  | some a =>
    cases hw : f.write a with
    | none => simp [hw]
    | some v => simp [hw, hnull a v hw]

/-- Fields with different keys do not meet. -/
theorem survives_both {f : Fields ν α} {g : Fields ν β} {h : ∀ k ∈ f.keys, k ∉ g.keys} {p : α × β} :
    (f.both g h).Survives p ↔ f.Survives p.1 ∧ g.Survives p.2 := by
  show ((f.write p.1).bind fun es => (g.write p.2).map fun es' => es ++ es').bind
    (fun es => (f.read es).bind fun a => (g.read es).map fun b => (a, b)) = some p ↔
    (f.write p.1).bind f.read = some p.1 ∧ (g.write p.2).bind g.read = some p.2
  cases hf : f.write p.1 with
  | none => simp
  | some es =>
    cases hg : g.write p.2 with
    | none => simp
    | some es' =>
      have hleft : f.read (es ++ es') = f.read es := by
        rw [← f.read_own, filter_append_left h hf hg]
      have hright : g.read (es ++ es') = g.read es' := by
        rw [← g.read_own, filter_append_right h hf hg]
      show (f.read (es ++ es')).bind (fun a => (g.read (es ++ es')).map fun b => (a, b)) =
        some p ↔ f.read es = some p.1 ∧ g.read es' = some p.2
      rw [hleft, hright]
      cases f.read es with
      | none => simp
      | some a =>
        cases g.read es' with
        | none => simp
        | some b => simp [Prod.ext_iff]

theorem survives_via {f : Fields ν α} {e : α ≃ β} {b : β} :
    (f.via e).Survives b ↔ f.Survives (e.symm b) :=
  bind_equiv

end Fields

/-! ## Records -/

section

variable [Treelike ν]

/-- The object of a record, which has no other keys. -/
def Format.record (f : Fields ν α) : Format ν α where
  write a := (f.write a).map Treelike.object
  read v := (Treelike.asObject v).bind fun entries =>
    if ∀ e ∈ entries, e.1 ∈ f.keys then f.read entries else none

/-- The object of a variant: the tag of the variant comes first. -/
def writeTagged (tag name : String) (f : Fields ν α) (a : α) : Option ν :=
  (f.write a).map fun entries => Treelike.object ((tag, Treelike.text name) :: entries)

/-- The name a tag has in an object, and the other entries. -/
def untag (tag : String) (v : ν) : Option (String × List (String × ν)) :=
  (Treelike.asObject v).bind fun entries =>
    ((lookup entries tag).bind Treelike.asText).map fun name =>
      (name, entries.filter fun e => decide (e.1 ≠ tag))

/-- The variant of a name reads the entries behind the tag. -/
def readTagged (tag : String) (ofName : String → List (String × ν) → Option β) (v : ν) :
    Option β :=
  (untag tag v).bind fun e => ofName e.1 e.2

theorem Format.survives_record {f : Fields ν α} {a : α} :
    (Format.record f).Survives a ↔ f.Survives a := by
  show ((f.write a).map Treelike.object).bind (Format.record f).read = some a ↔
    (f.write a).bind f.read = some a
  cases hw : f.write a with
  | none => exact Iff.rfl
  | some entries =>
    show (Treelike.asObject (Treelike.object entries)).bind _ = some a ↔ _
    rw [Treelike.asObject_object, Option.bind_some, if_pos (f.keys_of_write hw)]
    exact Iff.rfl

theorem untag_tagged {tag name : String} {f : Fields ν α} (h : tag ∉ f.keys) {a : α}
    {entries : List (String × ν)} (hw : f.write a = some entries) :
    untag tag (Treelike.object ((tag, Treelike.text name) :: entries)) = some (name, entries) := by
  have hkeys := f.keys_of_write hw
  have hnone : entries.filter (fun e => decide (e.1 = tag)) = [] :=
    List.filter_eq_nil_iff.mpr fun e he heq => h (of_decide_eq_true heq ▸ hkeys e he)
  have hall : entries.filter (fun e => decide (e.1 ≠ tag)) = entries :=
    List.filter_eq_self.mpr fun e he =>
      decide_eq_true fun heq => h (heq ▸ hkeys e he)
  unfold untag lookup
  simp only [Treelike.asObject_object, Option.bind_some, List.filter_cons, decide_true, if_true,
    hnone, hall, ne_eq, not_true_eq_false, decide_false, Bool.false_eq_true, if_false,
    Treelike.asText_text, Option.map_some]

/-- A variant is read as it was where its fields are. -/
theorem survives_tagged {tag name : String} {f : Fields ν α} (make : α → β) {a : α}
    {ofName : String → List (String × ν) → Option β} (htag : tag ∉ f.keys)
    (hread : ∀ entries, f.write a = some entries →
      ofName name entries = (f.read entries).map make) (h : f.Survives a) :
    (writeTagged tag name f a).bind (readTagged tag ofName) = some (make a) := by
  unfold Fields.Survives at h
  obtain ⟨entries, hw, hr⟩ := Option.bind_eq_some_iff.mp h
  unfold writeTagged readTagged
  rw [hw, Option.map_some, Option.bind_some, untag_tagged htag hw, Option.bind_some,
    hread _ hw, hr, Option.map_some]

/-- Only there, when the variant keeps its fields apart. -/
theorem survives_tagged_iff {tag name : String} {f : Fields ν α} (make : α → β) {a : α}
    {ofName : String → List (String × ν) → Option β} (htag : tag ∉ f.keys)
    (hread : ∀ entries, f.write a = some entries →
      ofName name entries = (f.read entries).map make) (hmake : Function.Injective make) :
    (writeTagged tag name f a).bind (readTagged tag ofName) = some (make a) ↔ f.Survives a := by
  refine ⟨fun h => ?_, survives_tagged make htag hread⟩
  unfold writeTagged readTagged at h
  obtain ⟨v, hv, h⟩ := Option.bind_eq_some_iff.mp h
  obtain ⟨entries, hw, rfl⟩ := Option.map_eq_some_iff.mp hv
  rw [untag_tagged htag hw, Option.bind_some, hread _ hw, Option.map_eq_some_iff] at h
  obtain ⟨a', ha', heq⟩ := h
  unfold Fields.Survives
  rw [hw, Option.bind_some, ha', hmake heq]

end

end Codec
