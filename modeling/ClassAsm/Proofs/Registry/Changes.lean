import ClassAsm.Proofs.Registry.Orderly

/-! Names in a registry that is changed step by step. Whatever is declared in whatever order, a name
stands for one thing: namespaces differ in their names, a namespace has each of its classes once, and
a class each of its members; what an index finds is what the list beside it has. A change that would
take a name twice is refused and leaves nothing behind, and any other change shows only where it is
asked for what it concerns. -/

namespace ClassAsm

namespace Registry

/-- What can be done to a registry. -/
inductive Change where
  | openNamespace (name : String)
  | declareClass (ns : Nat) (name : String) (isPublic : Bool)
  | addBuiltin (name asmName : String)
  | aliasBuiltin (name : String) (id : ClassId)
  | addField (id : ClassId) (f : Field)
  | addMethod (id : ClassId) (m : Method)
  | registerOperator (id : ClassId) (key method : String)

namespace Change

/-- The registry that the change leaves, and whether the change was accepted. -/
def run (r : Registry) : Change → Registry × Bool
  | openNamespace name => ((r.openNamespace name).1, true)
  | declareClass ns name isPublic =>
    let (r, id?) := r.declareClass ns name isPublic
    (r, id?.isSome)
  | addBuiltin name asmName => ((r.addBuiltin name asmName).1, true)
  | aliasBuiltin name id => (r.aliasBuiltin name id, true)
  | addField id f => r.alterClass id (·.addField f)
  | addMethod id m => r.alterClass id (·.addMethod m)
  | registerOperator id key method => (r.updateClass id (·.registerOperator key method), true)

/-- The namespace or class that is to be changed is there. -/
def Fits (r : Registry) : Change → Prop
  | declareClass ns _ _ => ns < r.namespaces.length
  | addField id _ | addMethod id _ | registerOperator id _ _ => id < r.classes.size
  | openNamespace _ | addBuiltin _ _ | aliasBuiltin _ _ => True

end Change

/-- Changes lead from the first registry to the second, some of them refused. -/
inductive Reaches : Registry → Registry → Prop where
  | refl {r : Registry} : Reaches r r
  | change {r r' : Registry} {c : Change} (h : Reaches r r') (fits : c.Fits r') :
      Reaches r (c.run r').1

/-! Questions to a registry. -/

inductive Question where
  | nspaceClass (ns : Nat) (name : String)
  | builtin (name : String)
  | type (ns : Nat) (name : TypeName)
  | field (id : ClassId) (name : String)
  | method (id : ClassId) (name : String)
  | operator (id : ClassId) (op : Operation)

inductive Answer where
  | cls (id : ClassId)
  | type (t : TypeRef)
  | field (f : Field)
  | method (m : Method)

def answer? (r : Registry) : Question → Option Answer
  | .nspaceClass ns name => (r.namespaces[ns]?.bind (·.lookup name)).map .cls
  | .builtin name => (r.builtin? name).map .cls
  | .type ns name => (r.resolve? name ns).map .type
  | .field id name => ((r.class? id).bind (·.field? name)).map .field
  | .method id name => ((r.class? id).bind (·.method? name)).map .method
  | .operator id op => ((r.class? id).bind (·.operator? op)).map .method

namespace Change

def Taken (r : Registry) : Change → Prop
  | declareClass ns name _ => (r.answer? (.nspaceClass ns name)).isSome
  | addField id f => (r.answer? (.field id f.name)).isSome
  | addMethod id m => (r.answer? (.method id m.sig.name)).isSome
  | openNamespace _ | addBuiltin _ _ | aliasBuiltin _ _ | registerOperator _ _ _ => False

/-- The question is about the name that the change takes or gives anew, in the place where it does. -/
def Concerns (r : Registry) : Change → Question → Prop
  | declareClass ns name _, .nspaceClass ns' name' => ns' = ns ∧ name' = name
  | declareClass ns name _, .type ns' t => ns' = ns ∧ t.base = name
  | addBuiltin name _, .builtin name' | aliasBuiltin name _, .builtin name' => name' = name
  | addBuiltin name _, .type _ t | aliasBuiltin name _, .type _ t => t.base = name
  | addField id f, .field id' name => id' = id ∧ name = f.name
  | addMethod id m, .method id' name => id' = id ∧ name = m.sig.name
  | addMethod id m, .operator id' op => id' = id ∧ ∃ c key, r.class? id = some c ∧
      op.key? = some key ∧ c.operators.lookup key = some m.sig.name
  | registerOperator id key _, .operator id' op => id' = id ∧ op.key? = some key
  | _, _ => False

end Change

/-! What a change does. -/

variable {r r' : Registry} {id : ClassId} {ns : Nat} {name : String} {isPublic : Bool}

/-- One class is exchanged for another of the same head, and all else stays. -/
structure Exchanges (r r' : Registry) (id : ClassId) (c c' : Class) : Prop where
  namespaces : r'.namespaces = r.namespaces
  builtins : r'.builtins = r.builtins
  old : r.class? id = some c
  head : c'.head = c.head
  classes : ∀ j, r'.class? j = if id = j then some c' else r.class? j

theorem Exchanges.agrees {c c' : Class} (h : Exchanges r r' id c c') : Agrees r r' := fun j => by
  rw [h.classes]
  split
  · next same =>
    rw [← same, h.old]
    exact congrArg some h.head
  · rfl

theorem updateClass_exchanges {c : Class} {f : Class → Class} (hc : r.class? id = some c)
    (head : (f c).head = c.head) : Exchanges r (r.updateClass id f) id c (f c) := by
  refine ⟨rfl, rfl, hc, head, fun j => ?_⟩
  rw [class?, updateClass, Array.getElem?_modify]
  split
  · next he =>
    subst he
    exact congrArg (Option.map f) hc
  · rfl

theorem alterClass_refused {c : Class} {f : Class → Class × Bool} (hc : r.class? id = some c)
    (hf : f c = (c, false)) : r.alterClass id f = (r, false) := by
  obtain ⟨lt, rfl⟩ := Array.getElem?_eq_some_iff.1 hc
  have kept : r.classes.setIfInBounds id r.classes[id] = r.classes := by
    rw [Array.setIfInBounds_def, dif_pos lt, Array.set_getElem_self]
  unfold alterClass
  rw [show r.classes[id]? = _ from hc]
  simp only [hf, kept]

theorem alterClass_accepted {c c' : Class} {f : Class → Class × Bool} (hc : r.class? id = some c)
    (head : c'.head = c.head) (hf : f c = (c', true)) :
    Exchanges r (r.alterClass id f).1 id c c' ∧ (r.alterClass id f).2 = true := by
  obtain ⟨lt, -⟩ := Array.getElem?_eq_some_iff.1 hc
  have made : r.alterClass id f = ({ r with classes := r.classes.setIfInBounds id c' }, true) := by
    unfold alterClass
    rw [show r.classes[id]? = _ from hc]
    simp only [hf]
  rw [made]
  refine ⟨⟨rfl, rfl, hc, head, fun j => ?_⟩, rfl⟩
  rw [class?, Array.getElem?_setIfInBounds, if_pos lt]
  rfl

/-- What an accepted change does. -/
inductive Change.Does (r : Registry) : Change → Registry → Prop where
  | opened {name : String} : Does r (.openNamespace name) (r.openNamespace name).1
  | declared {ns : Nat} {name : String} {isPublic : Bool} {id : ClassId} {r' : Registry}
      (h : r.declareClass? ns name isPublic = some (r', id)) :
      Does r (.declareClass ns name isPublic) r'
  | builtin {name asmName : String} : Does r (.addBuiltin name asmName) (r.addBuiltin name asmName).1
  | aliased {name : String} {id : ClassId} : Does r (.aliasBuiltin name id) (r.aliasBuiltin name id)
  | field {id : ClassId} {f : Field} {r' : Registry} {c : Class} (new : c.field? f.name = none)
      (h : Exchanges r r' id c (c.pushField f new)) : Does r (.addField id f) r'
  | method {id : ClassId} {m : Method} {r' : Registry} {c : Class}
      (new : c.method? m.sig.name = none) (h : Exchanges r r' id c (c.pushMethod m new)) :
      Does r (.addMethod id m) r'
  | operator {id : ClassId} {key method : String} {r' : Registry} {c : Class}
      (h : Exchanges r r' id c (c.registerOperator key method)) :
      Does r (.registerOperator id key method) r'

/-- A change is refused because its name is taken, and leaves nothing behind; or it is made. -/
theorem Change.run_cases {c : Change} (fits : c.Fits r) :
    (c.Taken r ∧ c.run r = (r, false)) ∨
      (¬ c.Taken r ∧ (c.run r).2 = true ∧ c.Does r (c.run r).1) := by
  cases c with
  | openNamespace name => exact .inr ⟨id, rfl, .opened⟩
  | addBuiltin name asmName => exact .inr ⟨id, rfl, .builtin⟩
  | aliasBuiltin name id => exact .inr ⟨fun h => h, rfl, .aliased⟩
  | registerOperator id key method =>
    have found : r.class? id = some r.classes[id] := Array.getElem?_eq_getElem fits
    exact .inr ⟨fun h => h, rfl, .operator (updateClass_exchanges found rfl)⟩
  | declareClass ns name isPublic =>
    obtain ⟨n, hn, new, made⟩ | ⟨taken, made⟩ | ⟨absent, -⟩ := r.declareClass_cases ns name isPublic
    · have declared : r.declareClass? ns name isPublic =
          some (((Change.declareClass ns name isPublic).run r).1, r.classes.size) := by
        rw [declareClass?, run, made]
        rfl
      refine .inr ⟨?_, by rw [run, made]; rfl, .declared declared⟩
      simp [Taken, answer?, hn, new]
    · refine .inl ⟨?_, by rw [run, made]; rfl⟩
      rw [Taken, answer?, Option.isSome_map]
      exact Option.ne_none_iff_isSome.1 taken
    · exact absurd fits (not_lt.2 (List.getElem?_eq_none_iff.1 absent))
  | addField id f =>
    have found : r.class? id = some r.classes[id] := Array.getElem?_eq_getElem fits
    have taken : Taken r (.addField id f) ↔ r.classes[id].field? f.name ≠ none := by
      rw [Taken, answer?, found, Option.bind_some, Option.isSome_map, Option.ne_none_iff_isSome]
    obtain ⟨new, added⟩ | ⟨old, added⟩ := r.classes[id].addField_cases f
    · obtain ⟨exchanges, accepted⟩ := alterClass_accepted (f := (·.addField f)) found
        (Class.head_pushField new) added
      exact .inr ⟨by simpa [taken] using new, accepted, .field new exchanges⟩
    · exact .inl ⟨taken.2 old, alterClass_refused (f := (·.addField f)) found added⟩
  | addMethod id m =>
    have found : r.class? id = some r.classes[id] := Array.getElem?_eq_getElem fits
    have taken : Taken r (.addMethod id m) ↔ r.classes[id].method? m.sig.name ≠ none := by
      rw [Taken, answer?, found, Option.bind_some, Option.isSome_map, Option.ne_none_iff_isSome]
    obtain ⟨new, added⟩ | ⟨old, added⟩ := r.classes[id].addMethod_cases m
    · obtain ⟨exchanges, accepted⟩ := alterClass_accepted (f := (·.addMethod m)) found
        (Class.head_pushMethod new) added
      exact .inr ⟨by simpa [taken] using new, accepted, .method new exchanges⟩
    · exact .inl ⟨taken.2 old, alterClass_refused (f := (·.addMethod m)) found added⟩

theorem Orderly.run {c : Change} (h : r.Orderly) (fits : c.Fits r) : (c.run r).1.Orderly := by
  obtain ⟨-, refused⟩ | ⟨-, -, does⟩ := Change.run_cases fits
  · rwa [refused]
  revert does
  generalize (c.run r).1 = r'
  intro does
  cases does with
  | opened => exact h.openNamespace _
  | declared hd => exact h.declareClass? hd
  | builtin => exact h.addBuiltin _ _
  | aliased => exact h.aliasBuiltin _ _
  | field _ exchanges | method _ exchanges | operator exchanges =>
    exact h.of_agrees exchanges.agrees exchanges.namespaces

theorem Reaches.orderly (h : Reaches r r') (start : r.Orderly) : r'.Orderly := by
  induction h with
  | refl => exact start
  | change _ fits ih => exact ih.run fits

end Registry

/-! Members that come to a class. -/

namespace Class

theorem lookup_filter_ne (l : List (String × String)) {k key : String} (h : (k == key) = false) :
    (l.filter (·.1 != key)).lookup k = l.lookup k := by
  induction l with
  | nil => rfl
  | cons p l ih =>
    obtain ⟨name, value⟩ := p
    by_cases hp : name = key
    · subst hp
      simp [List.lookup_cons, h, ih]
    · simp [List.lookup_cons, hp, ih]

theorem operator?_registerOperator (c : Class) {key method : String} {op : Operation}
    (h : op.key? ≠ some key) : (c.registerOperator key method).operator? op = c.operator? op := by
  unfold operator?
  cases hk : op.key? with
  | none => rfl
  | some k =>
    have other : (k == key) = false := by
      rw [beq_eq_false_iff_ne]
      rintro rfl
      exact h hk
    simp [registerOperator, List.lookup_cons, other, lookup_filter_ne c.operators other, method?]

theorem operator?_pushMethod {c : Class} {m : Method} (new : c.method? m.sig.name = none)
    {op : Operation} (h : ∀ key, op.key? = some key → c.operators.lookup key ≠ some m.sig.name) :
    (c.pushMethod m new).operator? op = c.operator? op := by
  unfold operator?
  cases hk : op.key? with
  | none => rfl
  | some key =>
    cases hn : c.operators.lookup key with
    | none => simp [hn]
    | some name =>
      have other : m.sig.name ≠ name := fun he => h key hk (he ▸ hn)
      simp [hn, method?_pushMethod, other]

end Class

namespace Registry

variable {r r' : Registry} {c : Change}

/-! What an orderly registry answers. -/

/-- Each name stands for one thing, and for the thing that says so itself. -/
structure Unambiguous (r : Registry) : Prop where
  nspaces : (r.namespaces.map (·.name)).Nodup
  lookups : ∀ n ∈ r.namespaces, ∀ name id, n.lookup name = some id ↔
    id ∈ n.ids ∧ ∃ c, r.class? id = some c ∧ c.name = name
  /-- A class that is not built in is listed once in all namespaces, in the one that it names. -/
  places : ∀ id c, r.class? id = some c → c.isBuiltin = false →
    (r.namespaces.flatMap Namespace.ids).count id = 1 ∧
      ∃ n ∈ r.namespaces, id ∈ n.ids ∧ n.name = c.nspace
  ascending : ∀ n ∈ r.namespaces, n.ids.Pairwise (· < ·)
  fields : ∀ id c name, r.class? id = some c →
    c.fields.filter (·.name == name) = (c.field? name).toList
  methods : ∀ id c name, r.class? id = some c →
    c.methods.filter (·.sig.name == name) = (c.method? name).toList
  /-- An index has every entry of its list, at its place, and nothing else. -/
  fieldIndex : ∀ id c name i, r.class? id = some c →
    (c.fieldTable.index[name]? = some i ↔ ∃ f : Field, c.fields[i]? = some f ∧ f.name = name)
  methodIndex : ∀ id c name i, r.class? id = some c →
    (c.methodTable.index[name]? = some i ↔ ∃ m : Method, c.methods[i]? = some m ∧ m.sig.name = name)

theorem filter_eq_find? {α : Type} {l : List α} {key : α → String} (h : (l.map key).Nodup)
    (name : String) : l.filter (key · == name) = (l.find? (key · == name)).toList := by
  induction l with
  | nil => rfl
  | cons a l ih =>
    obtain ⟨absent, rest⟩ := List.nodup_cons.1 h
    by_cases ha : key a = name
    · subst ha
      have none : l.filter (key · == key a) = [] := by
        refine List.filter_eq_nil_iff.2 fun b hb => ?_
        have other : key b ≠ key a := fun he => absent (he ▸ List.mem_map_of_mem hb)
        simpa using other
      simp [none]
    · simp [ha, ih rest]

theorem Orderly.unambiguous (h : r.Orderly) : r.Unambiguous where
  nspaces := h.nspaces
  lookups n hn name id := by
    rw [Namespace.lookup, n.indexes]
    constructor
    · intro hm
      obtain ⟨c, hc, -, -, same⟩ := h.classes n hn _ hm
      exact ⟨List.mem_map_of_mem (f := Prod.snd) hm, c, hc, same⟩
    · rintro ⟨hi, c, hc, rfl⟩
      obtain ⟨⟨key, _⟩, hp, rfl⟩ := List.mem_map.1 hi
      obtain ⟨c', hc', -, -, same⟩ := h.classes n hn _ hp
      obtain rfl := Option.some.inj (hc.symm.trans hc')
      rwa [show c.name = key from same]
  places id c hc hb := by
    obtain ⟨n, hn, hi⟩ := h.places id c hc hb
    have named {n : Namespace} {i : ClassId} (hn : n ∈ r.namespaces) (hi : i ∈ n.ids) :
        (r.class? i).map (·.nspace) = some n.name := by
      obtain ⟨p, hp, rfl⟩ := List.mem_map.1 hi
      obtain ⟨d, hd, -, same, -⟩ := h.classes n hn p hp
      rw [hd, ← same]
      rfl
    refine ⟨List.count_eq_one_of_mem ?_ (List.mem_flatMap.2 ⟨n, hn, hi⟩), n, hn, hi, ?_⟩
    · refine List.nodup_flatMap.2 ⟨fun n hn => (h.ascending n hn).imp fun lt => lt.ne, ?_⟩
      refine (List.pairwise_map.1 h.nspaces).imp_of_mem fun hn hn' apart => ?_
      rintro i hi hi'
      exact apart (Option.some.inj ((named hn hi).symm.trans (named hn' hi')))
    · have := named hn hi
      rw [hc] at this
      exact (Option.some.inj this).symm
  ascending := h.ascending
  fields _ c name _ := by
    rw [c.field?_eq]
    exact filter_eq_find? c.fieldTable.nodup name
  methods _ c name _ := by
    rw [c.method?_eq]
    exact filter_eq_find? c.methodTable.nodup name
  fieldIndex _ c name i _ := c.fieldTable.index_eq_some_iff
  methodIndex _ c name i _ := c.methodTable.index_eq_some_iff

/-! What a change leaves as it is. -/

theorem Exchanges.answer? {id : ClassId} {c c' : Class} (h : Exchanges r r' id c c') {q : Question}
    (field : ∀ name, q = .field id name → c'.field? name = c.field? name)
    (method : ∀ name, q = .method id name → c'.method? name = c.method? name)
    (operator : ∀ op, q = .operator id op → c'.operator? op = c.operator? op) :
    r'.answer? q = r.answer? q := by
  cases q with
  | nspaceClass | builtin | type => simp [Registry.answer?, builtin?, resolve?, h.namespaces, h.builtins]
  | field j name =>
    simp only [Registry.answer?, h.classes]
    split
    · next he =>
      subst he
      simp [h.old, field name rfl]
    · rfl
  | method j name =>
    simp only [Registry.answer?, h.classes]
    split
    · next he =>
      subst he
      simp [h.old, method name rfl]
    · rfl
  | operator j op =>
    simp only [Registry.answer?, h.classes]
    split
    · next he =>
      subst he
      simp [h.old, operator op rfl]
    · rfl

theorem answer?_push {c : Class} (hc : r'.classes = r.classes.push c) (hf : c.fields = [])
    (hm : c.methods = []) (j : ClassId) :
    (∀ name, r'.answer? (.field j name) = r.answer? (.field j name)) ∧
      (∀ name, r'.answer? (.method j name) = r.answer? (.method j name)) ∧
      ∀ op, r'.answer? (.operator j op) = r.answer? (.operator j op) := by
  have push {α : Type} {g : Class → Option α} (hg : g c = none) :
      (r'.class? j).bind g = (r.class? j).bind g := by
    rw [class?, hc, class?_push]
    split
    · next he =>
      have none : r.class? j = none := Array.getElem?_eq_none he.ge
      simp [hg, none]
    · rfl
  refine ⟨fun name => ?_, fun name => ?_, fun op => ?_⟩
  · have none : c.field? name = none := by simp [Class.field?_eq, hf]
    exact congrArg (Option.map Answer.field) (push none)
  · have none : c.method? name = none := by simp [Class.method?_eq, hm]
    exact congrArg (Option.map Answer.method) (push none)
  · have none : c.operator? op = none := by simp [Class.operator?, Class.method?_eq, hm]
    exact congrArg (Option.map Answer.method) (push none)

theorem bind_lookup_set {ns ns' : Nat} {n : Namespace} {name name' : String} {id : ClassId}
    (hn : r.namespaces[ns]? = some n) (new : n.lookup name = none) (h : ns' = ns → name' ≠ name) :
    (r.namespaces.set ns (n.push name id new))[ns']?.bind (·.lookup name') =
      r.namespaces[ns']?.bind (·.lookup name') := by
  rw [List.getElem?_set]
  split
  · next he =>
    subst he
    have other : name ≠ name' := (h rfl).symm
    obtain ⟨lt, rfl⟩ := List.getElem?_eq_some_iff.1 hn
    simp [lt, Namespace.lookup, Namespace.push, Std.ExtTreeMap.getElem?_insert, other]
  · rfl

theorem bind_lookup_append (l : List Namespace) (name name' : String) (ns : Nat) :
    (l ++ [{ name := name }])[ns]?.bind (·.lookup name') = l[ns]?.bind (·.lookup name') := by
  rcases Nat.lt_trichotomy ns l.length with lt | rfl | lt
  · rw [List.getElem?_append_left lt]
  · simp [Namespace.lookup]
  · rw [List.getElem?_eq_none (by simpa using lt), List.getElem?_eq_none lt.le]

theorem lookup_cons_ne {α : Type} {l : List (String × α)} {name name' : String} {a : α}
    (h : name' ≠ name) : ((name, a) :: l).lookup name' = l.lookup name' := by
  simp [List.lookup_cons, beq_false_of_ne h]

/-- The answers to all other questions are the same after a change. -/
theorem Change.answer?_run {q : Question} (fits : c.Fits r) (hq : ¬ c.Concerns r q) :
    (c.run r).1.answer? q = r.answer? q := by
  obtain ⟨-, refused⟩ | ⟨-, -, does⟩ := run_cases fits
  · rw [refused]
  revert does
  generalize (c.run r).1 = r'
  intro does
  cases does with
  | @opened name =>
    obtain he | ⟨-, he⟩ := openNamespace_cases r name
    · rw [he]
    rw [he]
    cases q <;> simp only [answer?, resolve?, bind_lookup_append] <;> rfl
  | declared hd =>
    obtain ⟨n, hn, new, rfl, rfl⟩ := declareClass?_iff.1 hd
    cases q with
    | nspaceClass ns' name' =>
      exact congrArg (Option.map Answer.cls) (bind_lookup_set hn new fun h h' => hq ⟨h, h'⟩)
    | builtin => rfl
    | type ns' t =>
      simp only [answer?, resolve?, bind_lookup_set hn new fun h h' => hq ⟨h, h'⟩]
      rfl
    | field j name => exact (answer?_push rfl rfl rfl j).1 name
    | method j name => exact (answer?_push rfl rfl rfl j).2.1 name
    | operator j op => exact (answer?_push rfl rfl rfl j).2.2 op
  | builtin =>
    cases q with
    | nspaceClass => rfl
    | builtin name' => exact congrArg (Option.map Answer.cls) (lookup_cons_ne hq)
    | type ns t => simp only [answer?, resolve?, builtin?, Registry.addBuiltin, lookup_cons_ne hq]
    | field j name => exact (answer?_push rfl rfl rfl j).1 name
    | method j name => exact (answer?_push rfl rfl rfl j).2.1 name
    | operator j op => exact (answer?_push rfl rfl rfl j).2.2 op
  | aliased =>
    cases q with
    | nspaceClass | field | method | operator => rfl
    | builtin name' => exact congrArg (Option.map Answer.cls) (lookup_cons_ne hq)
    | type ns t =>
      simp only [answer?, resolve?, builtin?, Registry.aliasBuiltin, lookup_cons_ne hq]
  | @field id f _ _ new exchanges =>
    refine exchanges.answer? ?_ (fun _ _ => rfl) (fun _ _ => rfl)
    rintro name rfl
    have other : f.name ≠ name := fun he => hq ⟨rfl, he.symm⟩
    simp [Class.field?_pushField, other]
  | @method id m _ c new exchanges =>
    refine exchanges.answer? (fun _ _ => rfl) ?_ ?_
    · rintro name rfl
      have other : m.sig.name ≠ name := fun he => hq ⟨rfl, he.symm⟩
      simp [Class.method?_pushMethod, other]
    · rintro op rfl
      exact Class.operator?_pushMethod new fun key hk hl =>
        hq ⟨rfl, c, key, exchanges.old, hk, hl⟩
  | operator exchanges =>
    refine exchanges.answer? (fun _ _ => rfl) (fun _ _ => rfl) ?_
    rintro op rfl
    exact Class.operator?_registerOperator _ fun hk => hq ⟨rfl, hk⟩

theorem Change.class?_run {id : ClassId} {d : Class} (fits : c.Fits r) (h : r.class? id = some d) :
    ∃ d', (c.run r).1.class? id = some d' ∧ d'.head = d.head := by
  obtain ⟨-, refused⟩ | ⟨-, -, does⟩ := run_cases fits
  · exact ⟨d, by rw [refused, h], rfl⟩
  revert does
  generalize (c.run r).1 = r'
  intro does
  cases does with
  | opened => exact ⟨d, by rw [Registry.class?, classes_openNamespace]; exact h, rfl⟩
  | declared hd =>
    obtain ⟨n, -, -, rfl, rfl⟩ := declareClass?_iff.1 hd
    exact ⟨d, class?_push_of_some h, rfl⟩
  | builtin => exact ⟨d, class?_push_of_some h, rfl⟩
  | aliased => exact ⟨d, h, rfl⟩
  | field _ exchanges | method _ exchanges | operator exchanges => exact exchanges.agrees.class? h

theorem Reaches.class? {id : ClassId} {d : Class} (h : Reaches r r') (hd : r.class? id = some d) :
    ∃ d', r'.class? id = some d' ∧ d'.head = d.head := by
  induction h with
  | refl => exact ⟨d, hd, rfl⟩
  | change _ fits ih =>
    obtain ⟨d', hd', same⟩ := ih
    obtain ⟨d'', hd'', same'⟩ := Change.class?_run fits hd'
    exact ⟨d'', hd'', same'.trans same⟩

/-- However a registry is built up, each name in it stands for one thing. A change is refused exactly
if its name is taken, and then nothing of it stays; any change leaves the answers to all questions as
they were that do not concern it. -/
theorem names_stand_for_one (h : Reaches .empty r) :
    r.Unambiguous ∧
    (∀ {r₀ r₁ : Registry} {ns : Nat} {name : String} {isPublic : Bool} {id : ClassId},
      r₀.declareClass ns name isPublic = (r₁, some id) → Reaches r₁ r →
      ∃ d, r.class? id = some d ∧ d.isBuiltin = false ∧ d.name = name ∧
        d.nspace = r₀.namespaceName ns) ∧
    ∀ c : Change, c.Fits r →
      ((c.run r).2 = false ↔ c.Taken r) ∧ ((c.run r).2 = false → (c.run r).1 = r) ∧
      ∀ q, ¬ c.Concerns r q → (c.run r).1.answer? q = r.answer? q := by
  refine ⟨(h.orderly .empty).unambiguous, fun {r₀ r₁ ns name isPublic id} hd later => ?_,
    fun c fits => ?_⟩
  · have declared : r₀.declareClass? ns name isPublic = some (r₁, id) := by
      rw [declareClass?, hd]
      rfl
    obtain ⟨n, hn, new, rfl, rfl⟩ := declareClass?_iff.1 declared
    obtain ⟨d, hc, same⟩ := Reaches.class? later Array.getElem?_push_size
    refine ⟨d, hc, (congrArg Class.isBuiltin same :), (congrArg Class.name same :), ?_⟩
    rw [namespaceName, hn]
    exact (congrArg Class.nspace same :)
  · refine ⟨?_, ?_, fun q hq => Change.answer?_run fits hq⟩
    · obtain ⟨taken, refused⟩ | ⟨free, accepted, -⟩ := Change.run_cases fits
      · simp [taken, refused]
      · simp [free, accepted]
    · obtain ⟨-, refused⟩ | ⟨-, accepted, -⟩ := Change.run_cases fits
      · exact fun _ => by rw [refused]
      · simp [accepted]

def FitInTurn : Registry → List Change → Prop
  | _, [] => True
  | r, c :: cs => c.Fits r ∧ FitInTurn (c.run r).1 cs

theorem Reaches.foldl {r₀ : Registry} {cs : List Change} (h : Reaches r₀ r)
    (fit : FitInTurn r cs) : Reaches r₀ (cs.foldl (fun r c => (c.run r).1) r) := by
  induction cs generalizing r with
  | nil => exact h
  | cons c cs ih => exact ih (h.change fit.1) fit.2

/-- Two classes of one name in two namespaces, and a class and a field that are refused. -/
def points : List Change :=
  [.addBuiltin "i32" "int32", .openNamespace "Geo", .declareClass 1 "Point" true,
    .declareClass 1 "Point" false, .declareClass 0 "Point" true,
    .addField 1 ⟨"x", ⟨0, false, false⟩, true, false, none, .point 0⟩,
    .addField 1 ⟨"x", ⟨1, false, false⟩, true, true, none, .point 0⟩]

theorem names_stand_for_one_points :
    let r := points.foldl (fun r c => (c.run r).1) .empty
    Reaches .empty r ∧
    r.namespaces.map (·.classes) = [[("Point", 2)], [("Point", 1)]] ∧
    ((r.class? 1).bind (·.field? "x")).map (·.type) = some ⟨0, false, false⟩ ∧
    r.Unambiguous ∧
    ∀ c : Change, c.Fits r →
      ((c.run r).2 = false ↔ c.Taken r) ∧ ((c.run r).2 = false → (c.run r).1 = r) ∧
      ∀ q, ¬ c.Concerns r q → (c.run r).1.answer? q = r.answer? q := by
  have fit : FitInTurn .empty points := by
    simp only [points, FitInTurn, Change.Fits, and_true, true_and]
    decide +kernel
  have reaches := Reaches.foldl .refl fit
  obtain ⟨unambiguous, -, changes⟩ := names_stand_for_one reaches
  exact ⟨reaches, by decide +kernel, by decide +kernel, unambiguous, changes⟩

end Registry
end ClassAsm
