import ClassAsm.Registry
import ClassAsm.Proofs.Result

/-! What the operations of a registry do. A namespace that is opened anew and a class that is declared
come last, in the registry and in their lists, and nothing takes a name that is taken. -/

namespace ClassAsm

/-- The numbers of the classes of a namespace. -/
def Namespace.ids (n : Namespace) : List ClassId := n.classes.map Prod.snd

/-! Tables. -/

namespace Table

variable {α : Type} {name : α → String} {t t' : Table name}

@[simp] theorem toList_empty : ({} : Table name).toList = [] := rfl

/-- An index finds what a search through the entries finds. -/
theorem find?_eq (t : Table name) (n : String) : t.find? n = t.toList.find? (name · == n) := by
  cases indexed : t.index[n]? with
  | none =>
    have absent : ∀ x ∈ t.toList, ¬ (name x == n) = true := fun x hx same => by
      obtain ⟨i, hi⟩ := List.mem_iff_getElem?.1 hx
      rw [toList, Array.getElem?_toList] at hi
      simp [(t.indexes n i).2 (by simp [hi, beq_iff_eq.1 same])] at indexed
    simp [find?, indexed, List.find?_eq_none.2 absent]
  | some i =>
    obtain ⟨x, here, rfl⟩ := Option.map_eq_some_iff.1 ((t.indexes n i).1 indexed)
    have listed : t.toList[i]? = some x := by rwa [toList, Array.getElem?_toList]
    obtain ⟨lt, rfl⟩ := List.getElem?_eq_some_iff.1 listed
    -- an earlier entry of the name would be at the same place
    have first : ∀ j < i, ∀ y, t.toList[j]? = some y → name y ≠ name t.toList[i] := by
      intro j hj y there same
      have indexed' := (t.indexes (name t.toList[i]) j).2 (by
        rw [← same, ← Array.getElem?_toList]
        exact congrArg (Option.map name) there)
      exact hj.ne (Option.some.inj (indexed'.symm.trans indexed))
    rw [find?, indexed, Option.bind_eq_bind, Option.bind_some, here, eq_comm,
      List.find?_eq_some_iff_getElem]
    exact ⟨beq_self_eq_true _, i, lt, rfl, fun j hj => by
      simpa using first j hj _ (List.getElem?_eq_getElem (hj.trans lt))⟩

theorem index_eq_none_iff {n : String} : t.index[n]? = none ↔ t.find? n = none := by
  constructor
  · intro h
    rw [find?, h]
    rfl
  · intro h
    cases indexed : t.index[n]? with
    | none => rfl
    | some i =>
      obtain ⟨x, here, -⟩ := Option.map_eq_some_iff.1 ((t.indexes n i).1 indexed)
      simp [find?, indexed, here] at h

/-- An index has every entry of the list, at its place, and nothing else. -/
theorem index_eq_some_iff {n : String} {i : Nat} :
    t.index[n]? = some i ↔ ∃ x, t.toList[i]? = some x ∧ name x = n := by
  rw [t.indexes, Option.map_eq_some_iff, toList, Array.getElem?_toList]

@[ext] theorem ext (same : t.toList = t'.toList) : t = t' := by
  obtain ⟨entries, index, indexes⟩ := t
  obtain ⟨entries', index', indexes'⟩ := t'
  obtain rfl : entries = entries' := Array.toList_inj.1 same
  obtain rfl : index = index' := Std.ExtTreeMap.ext_getElem? fun n =>
    Option.ext fun i => (indexes n i).trans (indexes' n i).symm
  rfl

@[simp] theorem toList_push {x : α} (new : t.index[name x]? = none) :
    (t.push x new).toList = t.toList ++ [x] := Array.toList_push

theorem add_of_new {x : α} (new : t.index[name x]? = none) : t.add x = (t.push x new, true) :=
  dif_pos new

theorem add_of_taken {x : α} (taken : t.index[name x]? ≠ none) : t.add x = (t, false) :=
  dif_neg taken

/-- Changes all entries in a way that keeps their names. -/
def map (t : Table name) (f : α → α) (keeps : ∀ x, name (f x) = name x) : Table name :=
  t.withEntries (t.entries.map f) (by
    rw [Array.map_map]
    exact congrArg (t.entries.map ·) (funext keeps))

@[simp] theorem toList_map (t : Table name) (f : α → α) (keeps : ∀ x, name (f x) = name x) :
    (t.map f keeps).toList = t.toList.map f := Array.toList_map

/-- A changed entry is added where the entry itself would be. -/
theorem add_map (t : Table name) (f : α → α) (keeps : ∀ x, name (f x) = name x) (x : α) :
    (t.map f keeps).add (f x) = ((t.add x).1.map f keeps, (t.add x).2) := by
  by_cases new : t.index[name x]? = none
  · have new' : (t.map f keeps).index[name (f x)]? = none := by rwa [keeps]
    rw [add_of_new new, add_of_new new']
    exact congrArg (·, true) (ext (by simp))
  · have taken : (t.map f keeps).index[name (f x)]? ≠ none := by rwa [keeps]
    rw [add_of_taken new, add_of_taken taken]

theorem nodup (t : Table name) : (t.toList.map name).Nodup := by
  rw [List.nodup_iff_injective_get]
  intro i j same
  have indexed (k : Fin (t.toList.map name).length) :
      t.index[(t.toList.map name).get k]? = some (k : Nat) := by
    refine (t.indexes _ _).2 ?_
    rw [← Array.getElem?_toList, ← List.getElem?_map]
    exact List.getElem?_eq_getElem k.2
  have places := indexed i
  rw [same, indexed j] at places
  exact Fin.ext (Option.some.inj places).symm

/-- Where the entry of a name is changed, all others stay. -/
theorem toList_modify (t : Table name) (n : String) (f : α → α) (keeps : ∀ x, name (f x) = name x) :
    (t.modify n f keeps).toList = t.toList.map fun x => if name x = n then f x else x := by
  refine List.ext_getElem? fun j => ?_
  rw [List.getElem?_map]
  unfold modify
  split
  · next i indexed =>
    rw [toList, withEntries, Array.getElem?_toList, Array.getElem?_modify, toList,
      Array.getElem?_toList]
    cases here : t.entries[j]? with
    | none => simp
    | some x =>
      have place : i = j ↔ name x = n := by
        have := t.indexes n j
        rw [indexed, here] at this
        simpa using this
      simp only [place, Option.map_some]
      split <;> rfl
  · next indexed =>
    cases here : t.toList[j]? with
    | none => rfl
    | some x =>
      have other : name x ≠ n := fun same => by
        rw [toList, Array.getElem?_toList] at here
        simp [(t.indexes n j).2 (by simp [here, same])] at indexed
      simp [other]

end Table

theorem Namespace.ext_classes {n n' : Namespace} (name : n.name = n'.name)
    (classes : n.classes = n'.classes) : n = n' := by
  obtain ⟨_, _, index, indexes⟩ := n
  obtain ⟨_, _, index', indexes'⟩ := n'
  obtain rfl : _ = _ := name
  obtain rfl : _ = _ := classes
  obtain rfl : index = index' := Std.ExtTreeMap.ext_getElem? fun name =>
    Option.ext fun id => (indexes name id).trans (indexes' name id).symm
  rfl

instance : DecidableEq Namespace := fun n n' =>
  decidable_of_iff (n.name = n'.name ∧ n.classes = n'.classes)
    ⟨fun h => Namespace.ext_classes h.1 h.2, fun h => by simp [h]⟩

/-- The index of a namespace finds what a search through its list finds. -/
theorem Namespace.lookup_eq (n : Namespace) (name : String) :
    n.lookup name = n.classes.lookup name := by
  refine Option.ext fun id => (n.indexes name id).trans ⟨fun listed => ?_, fun found => ?_⟩
  · cases found : n.classes.lookup name with
    | none => simpa using List.lookup_eq_none_iff.1 found _ listed
    | some id' =>
      obtain ⟨before, after, split, -⟩ := List.lookup_eq_some_iff.1 found
      have listed' : (name, id') ∈ n.classes := by simp [split]
      rw [← n.indexes] at listed listed'
      exact congrArg some (Option.some.inj (listed'.symm.trans listed))
  · obtain ⟨before, after, split, -⟩ := List.lookup_eq_some_iff.1 found
    simp [split]

@[simp] theorem Namespace.classes_push {n : Namespace} {name : String} {id : ClassId}
    (new : n.lookup name = none) : (n.push name id new).classes = n.classes ++ [(name, id)] := rfl

@[simp] theorem Namespace.name_push {n : Namespace} {name : String} {id : ClassId}
    (new : n.lookup name = none) : (n.push name id new).name = n.name := rfl

namespace Class

variable {c c' : Class}

theorem field?_eq (c : Class) (name : String) : c.field? name = c.fields.find? (·.name == name) :=
  c.fieldTable.find?_eq name

theorem method?_eq (c : Class) (name : String) :
    c.method? name = c.methods.find? (·.sig.name == name) := c.methodTable.find?_eq name

theorem mem_of_field? {name : String} {f : Field} (h : c.field? name = some f) :
    f ∈ c.fields ∧ f.name = name := by
  rw [field?_eq] at h
  exact ⟨List.mem_of_find?_eq_some h, by simpa using List.find?_some h⟩

theorem mem_of_method? {name : String} {m : Method} (h : c.method? name = some m) :
    m ∈ c.methods ∧ m.sig.name = name := by
  rw [method?_eq] at h
  exact ⟨List.mem_of_find?_eq_some h, by simpa using List.find?_some h⟩

/-- Classes are the same if their heads, fields and methods are. -/
theorem ext_members (head : { c with fieldTable := {}, methodTable := {} } =
      { c' with fieldTable := {}, methodTable := {} })
    (fields : c.fields = c'.fields) (methods : c.methods = c'.methods) : c = c' := by
  obtain ⟨_, _, _, _, _, fieldTable, methodTable, _⟩ := c
  obtain ⟨_, _, _, _, _, fieldTable', methodTable', _⟩ := c'
  obtain rfl : fieldTable = fieldTable' := Table.ext fields
  obtain rfl : methodTable = methodTable' := Table.ext methods
  simpa using head

/-- The class with one more field. -/
def pushField (c : Class) (f : Field) (new : c.field? f.name = none) : Class :=
  { c with fieldTable := c.fieldTable.push f (Table.index_eq_none_iff.2 new) }

/-- The class with one more method. -/
def pushMethod (c : Class) (m : Method) (new : c.method? m.sig.name = none) : Class :=
  { c with methodTable := c.methodTable.push m (Table.index_eq_none_iff.2 new) }

@[simp] theorem fields_pushField {f : Field} (new : c.field? f.name = none) :
    (c.pushField f new).fields = c.fields ++ [f] := Table.toList_push (Table.index_eq_none_iff.2 new)

@[simp] theorem methods_pushMethod {m : Method} (new : c.method? m.sig.name = none) :
    (c.pushMethod m new).methods = c.methods ++ [m] :=
  Table.toList_push (Table.index_eq_none_iff.2 new)

@[simp] theorem methods_pushField {f : Field} (new : c.field? f.name = none) :
    (c.pushField f new).methods = c.methods := rfl

@[simp] theorem fields_pushMethod {m : Method} (new : c.method? m.sig.name = none) :
    (c.pushMethod m new).fields = c.fields := rfl

@[simp] theorem operators_pushMethod {m : Method} (new : c.method? m.sig.name = none) :
    (c.pushMethod m new).operators = c.operators := rfl

theorem field?_pushField {f : Field} (new : c.field? f.name = none) (name : String) :
    (c.pushField f new).field? name =
      (c.field? name).or (if f.name = name then some f else none) := by
  simp [field?_eq, List.find?_append, List.find?_singleton]

theorem method?_pushMethod {m : Method} (new : c.method? m.sig.name = none) (name : String) :
    (c.pushMethod m new).method? name =
      (c.method? name).or (if m.sig.name = name then some m else none) := by
  simp [method?_eq, List.find?_append, List.find?_singleton]

/-- A field is added under a new name; one that is refused leaves the class as it is. -/
theorem addField_cases (c : Class) (f : Field) :
    (∃ new : c.field? f.name = none, c.addField f = (c.pushField f new, true)) ∨
      c.field? f.name ≠ none ∧ c.addField f = (c, false) := by
  by_cases new : c.field? f.name = none
  · refine .inl ⟨new, ?_⟩
    rw [addField, Table.add_of_new (Table.index_eq_none_iff.2 new)]
    rfl
  · refine .inr ⟨new, ?_⟩
    rw [addField, Table.add_of_taken (Table.index_eq_none_iff.not.2 new)]

theorem addMethod_cases (c : Class) (m : Method) :
    (∃ new : c.method? m.sig.name = none, c.addMethod m = (c.pushMethod m new, true)) ∨
      c.method? m.sig.name ≠ none ∧ c.addMethod m = (c, false) := by
  by_cases new : c.method? m.sig.name = none
  · refine .inl ⟨new, ?_⟩
    rw [addMethod, Table.add_of_new (Table.index_eq_none_iff.2 new)]
    rfl
  · refine .inr ⟨new, ?_⟩
    rw [addMethod, Table.add_of_taken (Table.index_eq_none_iff.not.2 new)]

theorem addField?_iff {f : Field} : c.addField? f = some c' ↔
    ∃ new : c.field? f.name = none, c' = c.pushField f new := by
  obtain ⟨new, he⟩ | ⟨taken, he⟩ := c.addField_cases f
  · simp [addField?, he, new, eq_comm]
  · simp [addField?, he, taken]

theorem addMethod?_iff {m : Method} : c.addMethod? m = some c' ↔
    ∃ new : c.method? m.sig.name = none, c' = c.pushMethod m new := by
  obtain ⟨new, he⟩ | ⟨taken, he⟩ := c.addMethod_cases m
  · simp [addMethod?, he, new, eq_comm]
  · simp [addMethod?, he, taken]

/-- The class in which methods are replaced by others of their names. -/
def complete (c : Class) (ms : List Method) : Class :=
  ms.foldl (fun c m => c.updateMethod m.sig.name fun _ => m) c

theorem complete_eq (c : Class) (ms : List Method) :
    c.complete ms = { c with methodTable := (c.complete ms).methodTable } := by
  induction ms generalizing c with
  | nil => rfl
  | cons m ms ih => exact ih _

@[simp] theorem fields_complete (c : Class) (ms : List Method) :
    (c.complete ms).fields = c.fields := by
  rw [complete_eq]
  rfl

theorem names_nodup (c : Class) : (c.methods.map (·.sig.name)).Nodup := c.methodTable.nodup

theorem method?_of_mem {m : Method} (hm : m ∈ c.methods) : c.method? m.sig.name = some m := by
  have listed : (c.methods.find? (·.sig.name == m.sig.name)).isSome :=
    List.find?_isSome.2 ⟨m, hm, beq_self_eq_true m.sig.name⟩
  obtain ⟨m', found⟩ := Option.isSome_iff_exists.1 listed
  have name : m'.sig.name = m.sig.name := by simpa using List.find?_some found
  obtain rfl := List.inj_on_of_nodup_map c.names_nodup (List.mem_of_find?_eq_some found) hm name
  rw [method?_eq, found]

theorem methods_updateMethod (c : Class) (name : String) (f : Method → Method) :
    (c.updateMethod name f).methods =
      c.methods.map fun m => if m.sig.name = name then { f m with sig := m.sig } else m :=
  c.methodTable.toList_modify name (fun m => { f m with sig := m.sig }) fun _ => rfl

/-- A class is completed with methods of the same signatures, one after the other. -/
theorem methods_complete {c : Class} {ms : List Method}
    (same : ms.map (·.sig) = c.methods.map (·.sig)) : (c.complete ms).methods = ms := by
  suffices run : ∀ (done rest : List Method) (c : Class), c.methods = done ++ rest →
      ms.map (·.sig) = rest.map (·.sig) → (c.complete ms).methods = done ++ ms from
    run [] c.methods c rfl same
  clear same c
  induction ms with
  | nil =>
    intro done rest c listed same
    obtain rfl : rest = [] := by simpa using same.symm
    exact listed
  | cons m ms ih =>
    intro done rest c listed same
    obtain _ | ⟨m₀, rest⟩ := rest
    · simp at same
    obtain ⟨sig, same⟩ : m.sig = m₀.sig ∧ ms.map (·.sig) = rest.map (·.sig) := by simpa using same
    have names := c.names_nodup
    rw [listed, List.map_append, List.map_cons, List.nodup_append, List.nodup_cons] at names
    obtain ⟨-, ⟨behind, -⟩, before⟩ := names
    have keep {l : List Method} (other : ∀ m' ∈ l, m'.sig.name ≠ m₀.sig.name) :
        (l.map fun m' => if m'.sig.name = m.sig.name then { m with sig := m'.sig } else m') = l :=
      (List.map_congr_left fun m' hm => if_neg (sig ▸ other m' hm)).trans l.map_id
    have front := keep fun m' hm => before _ (List.mem_map_of_mem hm) _ List.mem_cons_self
    have back := keep fun m' hm he => behind (he ▸ List.mem_map_of_mem hm)
    have replaced : (c.updateMethod m.sig.name fun _ => m).methods = (done ++ [m]) ++ rest := by
      rw [methods_updateMethod, listed, List.map_append, List.map_cons, front, back, ← sig, if_pos rfl,
        ← List.append_cons]
    rw [List.append_cons]
    exact ih (done ++ [m]) rest _ replaced same

end Class

namespace Registry

variable {r r' : Registry} {id : ClassId} {ns : Nat} {name : String} {isPublic : Bool}

/-! Namespaces. -/

def spaces (r : Registry) : List String := r.namespaces.map (·.name)

/-- Opening a namespace gives its index, and adds it last if it is not there. -/
theorem openNamespace_eq (r : Registry) (name : String) : r.openNamespace name =
    if name ∈ r.spaces then (r, r.spaces.idxOf name)
    else ({ r with namespaces := r.namespaces ++ [{ name := name }] }, r.spaces.length) := by
  have first : r.spaces.idxOf name = r.namespaces.findIdx (·.name == name) := List.findIdx_map ..
  unfold openNamespace
  split
  · next i hi =>
    obtain ⟨lt, rfl⟩ := List.findIdx?_eq_some_iff_findIdx_eq.1 hi
    have member : name ∈ r.spaces := by
      rw [← List.idxOf_lt_length_iff, first, spaces, List.length_map]
      exact lt
    rw [if_pos member, first]
  · next hi =>
    have absent : name ∉ r.spaces := by
      intro hm
      obtain ⟨n, hn, rfl⟩ := List.mem_map.1 hm
      simpa using List.findIdx?_eq_none_iff.1 hi n hn
    rw [if_neg absent, spaces, List.length_map]

theorem openNamespace_cases (r : Registry) (name : String) :
    (r.openNamespace name).1 = r ∨ name ∉ r.spaces ∧
      (r.openNamespace name).1 = { r with namespaces := r.namespaces ++ [{ name := name }] } := by
  rw [openNamespace_eq]
  split
  · exact .inl rfl
  · next new => exact .inr ⟨new, rfl⟩

theorem classes_openNamespace (r : Registry) (name : String) :
    (r.openNamespace name).1.classes = r.classes := by
  obtain he | ⟨-, he⟩ := openNamespace_cases r name <;> rw [he]

theorem openNamespace_spec (r : Registry) (name : String) :
    ((r.openNamespace name).1.spaces =
      if name ∈ r.spaces then r.spaces else r.spaces ++ [name]) ∧
    (r.openNamespace name).1.spaces[(r.openNamespace name).2]? = some name := by
  rw [openNamespace_eq]
  split
  · next old =>
    have lt := List.idxOf_lt_length_iff.2 old
    exact ⟨rfl, by rw [List.getElem?_eq_getElem lt, List.getElem_idxOf]⟩
  · next new => exact ⟨List.map_append, by simp [spaces]⟩

/-- What holds of each namespace still does with another one that has it. -/
theorem forall_mem_concat {l : List Namespace} {P : Namespace → Prop} {n : Namespace}
    (h : ∀ n ∈ l, P n) (hn : P n) : ∀ n' ∈ l ++ [n], P n' := by
  simpa [or_imp, forall_and] using ⟨h, hn⟩

theorem map_name_set {n : Namespace} (lt : ns < r.namespaces.length)
    (same : n.name = r.namespaces[ns].name) :
    (r.namespaces.set ns n).map (·.name) = r.namespaces.map (·.name) := by
  have bound : ns < (r.namespaces.map (·.name)).length := by simpa using lt
  have entry : n.name = (r.namespaces.map (·.name))[ns] := by simpa using same
  rw [List.map_set, entry, List.set_getElem_self]

/-- What holds of each namespace still does where one is exchanged for another that has it. -/
theorem forall_mem_set {l : List Namespace} {P : Namespace → Prop} {i : Nat} {n : Namespace}
    (h : ∀ n ∈ l, P n) (hn : P n) : ∀ n' ∈ l.set i n, P n' := fun n' hm => by
  rcases List.mem_or_eq_of_mem_set hm with hm | rfl
  · exact h n' hm
  · exact hn

theorem exists_mem_set {l : List Namespace} {P : Namespace → Prop} {i : Nat} {n : Namespace}
    (lt : i < l.length) (h : ∃ n ∈ l, P n) (hn : P l[i] → P n) : ∃ n' ∈ l.set i n, P n' := by
  obtain ⟨n', hm, hp⟩ := h
  obtain ⟨j, hj, rfl⟩ := List.mem_iff_getElem.1 hm
  by_cases he : i = j
  · subst he
    exact ⟨n, List.mem_set lt _, hn hp⟩
  · refine ⟨l[j], List.mem_iff_getElem.2 ⟨j, by simpa using hj, ?_⟩, hp⟩
    rw [List.getElem_set_ne he]

/-! Classes. -/

theorem updateClass_self (r : Registry) (id : ClassId) : (r.updateClass id fun c => c) = r := by
  have kept : (r.classes.modify id fun c => c) = r.classes := by
    refine Array.ext_getElem? fun j => ?_
    rw [Array.getElem?_modify]
    split
    · exact Option.map_id'
    · rfl
  rw [updateClass, kept]

theorem updateClass_updateClass (r : Registry) (id : ClassId) (f g : Class → Class) :
    (r.updateClass id f).updateClass id g = r.updateClass id fun c => g (f c) := by
  have twice : (r.classes.modify id f).modify id g = r.classes.modify id fun c => g (f c) := by
    refine Array.ext_getElem? fun j => ?_
    simp only [Array.getElem?_modify]
    split
    · rw [Option.map_map]
      rfl
    · rfl
  rw [updateClass, updateClass, twice]
  rfl

/-- A class is declared under the next number, and its namespace lists it last. A class that is refused
leaves the registry as it is. -/
theorem declareClass_cases (r : Registry) (ns : Nat) (name : String) (isPublic : Bool) :
    (∃ n, r.namespaces[ns]? = some n ∧ ∃ new : n.lookup name = none,
      r.declareClass ns name isPublic =
        ({ r with
          classes := r.classes.push
            { nspace := n.name, name, asmName := s!"class {n.name}.{name}", isPublic,
              isBuiltin := false }
          namespaces := r.namespaces.set ns (n.push name r.classes.size new) },
          some r.classes.size)) ∨
      r.namespaces[ns]?.bind (·.lookup name) ≠ none ∧
        r.declareClass ns name isPublic = (r, none) ∨
      r.namespaces[ns]? = none ∧ r.declareClass ns name isPublic = (r, none) := by
  unfold declareClass
  split
  · next absent => exact .inr (.inr ⟨absent, rfl⟩)
  · next n hn =>
    by_cases new : n.lookup name = none
    · exact .inl ⟨n, hn, new, dif_pos new⟩
    · exact .inr (.inl ⟨by rwa [hn, Option.bind_some], dif_neg new⟩)

theorem declareClass?_iff : r.declareClass? ns name isPublic = some (r', id) ↔
    ∃ n, r.namespaces[ns]? = some n ∧ ∃ new : n.lookup name = none, id = r.classes.size ∧
      r' = { r with
        classes := r.classes.push
          { nspace := n.name, name, asmName := s!"class {n.name}.{name}", isPublic,
            isBuiltin := false }
        namespaces := r.namespaces.set ns (n.push name id new) } := by
  obtain ⟨n, hn, new, he⟩ | ⟨taken, he⟩ | ⟨absent, he⟩ := r.declareClass_cases ns name isPublic
  · simp only [declareClass?, he, hn, Option.map_some, Option.some.injEq, Prod.mk.injEq]
    constructor
    · rintro ⟨rfl, rfl⟩
      exact ⟨n, rfl, new, rfl, rfl⟩
    · rintro ⟨_, rfl, _, rfl, rfl⟩
      exact ⟨rfl, rfl⟩
  · simp only [declareClass?, he, Option.map_none, reduceCtorEq, false_iff]
    rintro ⟨n, hn, new, -⟩
    exact taken (by rw [hn, Option.bind_some, new])
  · simp [declareClass?, he, absent]

theorem declareClass?_eq_some (h : r.declareClass? ns name isPublic = some (r', id)) :
    id = r.classes.size ∧
      ∃ c, r'.classes = r.classes.push c ∧ c.methods = [] ∧ c.operators = [] := by
  obtain ⟨n, -, -, rfl, rfl⟩ := declareClass?_iff.1 h
  exact ⟨rfl, _, rfl, rfl, rfl⟩

theorem class?_push (r : Registry) (c : Class) (j : ClassId) :
    (r.classes.push c)[j]? = if j = r.classes.size then some c else r.class? j := by
  rw [Array.getElem?_push]
  rfl

theorem lt_size_of_class? {c : Class} (h : r.class? id = some c) : id < r.classes.size :=
  (Array.getElem?_eq_some_iff.1 h).1

theorem class?_push_of_some {c d : Class} (h : r.class? id = some c) :
    (r.classes.push d)[id]? = some c := by
  rw [class?_push, if_neg (lt_size_of_class? h).ne, h]

end Registry
end ClassAsm
