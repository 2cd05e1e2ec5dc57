import ClassAsm.Proofs.Assembly.Contents
import ClassAsm.Proofs.Order.Places

/-! Where the classes of items go. A class belongs to the namespace that was opened last before it,
and a namespace that is opened again takes more classes; a program has its namespaces in the order in
which they are first opened. This is said of the items alone, and the placement of classes agrees
with it. -/

namespace ClassAsm

open Registry (defaultNamespace)

/-- The namespace that is opened, if the item opens one. -/
def Item.nspace? : Item → Option String
  | .nspace name _ => some name
  | .cls _ => none

/-- The namespaces of a program, each where it is first opened. -/
def Item.openings (items : List Item) : List String :=
  (defaultNamespace :: items.filterMap Item.nspace?).eraseDups

/-- The namespace that is open behind the items. -/
def Item.lastOpened (here : String) : List Item → String
  | [] => here
  | .nspace name _ :: items => lastOpened name items
  | .cls _ :: items => lastOpened here items

namespace Item

theorem eraseDups_concat (l : List String) (a : String) :
    (l ++ [a]).eraseDups = if a ∈ l.eraseDups then l.eraseDups else l.eraseDups ++ [a] := by
  rw [List.eraseDups_append, if_congr List.mem_eraseDups rfl rfl]
  by_cases h : a ∈ l <;> simp [List.removeAll, List.eraseDups_cons, h]

theorem openings_concat_nspace (items : List Item) (name : String) (span : Span) :
    openings (items ++ [.nspace name span]) =
      if name ∈ openings items then openings items else openings items ++ [name] := by
  rw [openings, List.filterMap_append]
  exact eraseDups_concat (defaultNamespace :: items.filterMap Item.nspace?) name

theorem openings_concat_cls (items : List Item) (decl : ClassDecl) :
    openings (items ++ [.cls decl]) = openings items := by
  rw [openings, List.filterMap_append]
  exact congrArg (List.eraseDups <| defaultNamespace :: ·) (List.append_nil _)

theorem lastOpened_append (here : String) (items items' : List Item) :
    lastOpened here (items ++ items') = lastOpened (lastOpened here items) items' := by
  fun_induction lastOpened here items with
  | case1 => rfl
  | case2 _ _ _ _ ih => exact ih
  | case3 _ _ _ ih => exact ih

theorem declarations_append (here : String) (items items' : List Item) :
    declarations here (items ++ items') =
      declarations here items ++ declarations (lastOpened here items) items' := by
  fun_induction declarations here items with
  | case1 => rfl
  | case2 _ _ _ _ ih => exact ih
  | case3 _ _ _ ih => exact congrArg (List.cons _) ih

theorem mem_of_mem_declarations {here : String} {items : List Item} {d : Declaration}
    (hm : d ∈ declarations here items) : .cls d.cls ∈ items := by
  fun_induction declarations here items with
  | case1 => cases hm
  | case2 _ _ _ _ ih => exact List.mem_cons_of_mem _ (ih hm)
  | case3 _ _ _ ih =>
    rcases List.mem_cons.1 hm with rfl | hm
    · exact List.mem_cons_self
    · exact List.mem_cons_of_mem _ (ih hm)

end Item

namespace Placement

/-- The placed class is the declared one, in the namespace at its index. -/
def Takes (names : List String) (q : Placed) (d : Declaration) : Prop :=
  q.decl = d.cls ∧ names[q.nspace]? = some d.nspace

theorem Takes.mono {names names' : List String} {q : Placed} {d : Declaration}
    (ht : Takes names q d) (hp : names <+: names') : Takes names' q d := by
  obtain ⟨same, home⟩ := ht
  refine ⟨same, ?_⟩
  obtain ⟨lt, entry⟩ := List.getElem?_eq_some_iff.1 home
  rw [List.getElem?_eq_getElem (lt.trans_le hp.length_le), ← hp.getElem lt, entry]

theorem lt_of_takes {names : List String} {placed : List Placed} {ds : List Declaration}
    (h : List.Forall₂ (Takes names) placed ds) : ∀ q ∈ placed, q.nspace < names.length :=
  ((List.forall₂_and_left _ _).1 (h.imp fun _ _ ht =>
    ⟨(List.getElem?_eq_some_iff.1 ht.2).1, ht⟩)).1

/-- Namespaces and classes are placed as the items say. -/
structure Agrees (items : List Item) (p : Placement) : Prop where
  names : p.registry.spaces = Item.openings items
  here : (Item.openings items)[p.nspace]? = some (Item.lastOpened defaultNamespace items)
  placed : List.Forall₂ (Takes (Item.openings items)) p.placed.reverse
    (Item.declarations defaultNamespace items)
  ids : ∀ i n, p.registry.namespaces[i]? = some n →
    n.ids = (p.placed.reverse.filter (·.nspace == i)).map (·.id)
  shells : ∀ q ∈ p.placed, ∃ c, p.registry.class? q.id = some c ∧ c.name = q.decl.name ∧
    c.isPublic = q.decl.isPublic ∧ c.fields = [] ∧ c.methods = []

theorem Agrees.start : Agrees [] { registry := Registry.base } where
  names := rfl
  here := rfl
  placed := .nil
  ids i n h := by
    match i with
    | 0 =>
      obtain rfl := Option.some.inj h
      rfl
    | i + 1 => cases h
  shells := nofun

theorem Agrees.nspace {items : List Item} {p : Placement} (h : p.Agrees items) (name : String)
    (span : Span) : Agrees (items ++ [.nspace name span])
      { p with
        registry := (p.registry.openNamespace name).1
        nspace := (p.registry.openNamespace name).2 } := by
  obtain ⟨names, index⟩ := p.registry.openNamespace_spec name
  have opened : (p.registry.openNamespace name).1.spaces =
      Item.openings (items ++ [.nspace name span]) := by
    rw [names, h.names, Item.openings_concat_nspace]
  have longer : Item.openings items <+: Item.openings (items ++ [.nspace name span]) := by
    rw [Item.openings_concat_nspace]
    split
    · exact List.prefix_rfl
    · exact List.prefix_append _ _
  have classes := p.registry.classes_openNamespace name
  refine ⟨opened, ?_, ?_, fun i n hn => ?_, ?_⟩
  · rw [← opened, index, Item.lastOpened_append]
    rfl
  · rw [Item.declarations_append, show Item.declarations _ [.nspace name span] = [] from rfl,
      List.append_nil]
    exact h.placed.imp fun _ _ ht => ht.mono longer
  · obtain he | ⟨-, he⟩ := Registry.openNamespace_cases p.registry name
    · exact h.ids i n (by simpa only [he] using hn)
    · simp only [he] at hn
      rcases Nat.lt_trichotomy i p.registry.namespaces.length with lt | rfl | lt
      · rw [List.getElem?_append_left lt] at hn
        exact h.ids i n hn
      · obtain rfl := Option.some.inj ((List.getElem?_concat_length ..).symm.trans hn)
        have none : p.placed.reverse.filter (·.nspace == p.registry.namespaces.length) = [] := by
          refine List.filter_eq_nil_iff.2 fun q hq he => ?_
          have lt := lt_of_takes h.placed q hq
          rw [← h.names, Registry.spaces, List.length_map, eq_of_beq he] at lt
          exact lt_irrefl _ lt
        simp [none, Namespace.ids]
      · rw [List.getElem?_eq_none (by simpa using lt)] at hn
        cases hn
  · simp only [Registry.class?, classes]
    exact h.shells

theorem Agrees.cls {items : List Item} {p : Placement} (h : p.Agrees items) {decl : ClassDecl}
    {r : Registry} {id : ClassId}
    (hd : p.registry.declareClass? p.nspace decl.name decl.isPublic = some (r, id)) :
    Agrees (items ++ [.cls decl])
      { p with registry := r, placed := ⟨decl, p.nspace, id⟩ :: p.placed } := by
  obtain ⟨n, hn, new, rfl, rfl⟩ := Registry.declareClass?_iff.1 hd
  obtain ⟨lt, rfl⟩ := List.getElem?_eq_some_iff.1 hn
  have opened := Item.openings_concat_cls items decl
  refine ⟨?_, ?_, ?_, fun i n' hn' => ?_, ?_⟩
  · rw [opened, ← h.names]
    exact Registry.map_name_set lt (Namespace.name_push new)
  · rw [opened, Item.lastOpened_append]
    exact h.here
  · rw [opened, Item.declarations_append, List.reverse_cons]
    exact List.rel_append h.placed (.cons ⟨rfl, h.here⟩ .nil)
  · rw [List.reverse_cons, List.filter_append, List.map_append]
    simp only [List.getElem?_set] at hn'
    by_cases here : p.nspace = i
    · subst here
      rw [if_pos rfl, if_pos lt] at hn'
      obtain rfl := Option.some.inj hn'
      rw [← h.ids _ _ hn]
      simp [Namespace.ids]
    · rw [if_neg here] at hn'
      simp [h.ids i n' hn', here]
  · rw [List.forall_mem_cons]
    refine ⟨⟨_, Array.getElem?_push_size, rfl, rfl, rfl, rfl⟩, fun q hq => ?_⟩
    obtain ⟨c, hc, same⟩ := h.shells q hq
    exact ⟨c, Registry.class?_push_of_some hc, same⟩

theorem Agrees.add {items : List Item} {p p' : Placement} (h : p.Agrees items) {item : Item}
    (ha : p.add item = .ok p') : p'.Agrees (items ++ [item]) := by
  cases item with
  | nspace name span =>
    obtain rfl := add_nspace_eq_ok ha
    exact h.nspace name span
  | cls decl =>
    obtain ⟨r, id, hd, rfl⟩ := add_cls_eq_ok ha
    exact h.cls hd

theorem agrees_of_placed {items : List Item} {p : Placement}
    (ha : items.foldlM Placement.add { registry := Registry.base } = .ok p) : p.Agrees items :=
  foldlM_invariant (P := fun items p => p.Agrees items) ha .start fun _ _ _ _ _ h ha => h.add ha

end Placement

/-! Members. -/

/-- What a field declaration says besides its type. -/
def FieldDecl.face (f : FieldDecl) : Entry × Bool × Bool :=
  (⟨f.isPublic, f.name⟩, f.isStatic, f.default.isSome)

def Field.face (f : Field) : Entry × Bool × Bool := (.ofField f, f.isStatic, f.default.isSome)

def ClassDecl.initializes (d : ClassDecl) (isStatic : Bool) : Bool :=
  d.fields.any fun f => f.isStatic == isStatic && f.default.isSome

/-- The initializers that a class gets: of objects if an instance field has a default, of the class
if a static field has one. -/
def ClassDecl.initializers (d : ClassDecl) : List Entry :=
  (if d.initializes false then [⟨true, ".ctor"⟩] else []) ++
    (if d.initializes true then [⟨false, ".cctor"⟩] else [])

def Entry.ofFieldDecl (f : FieldDecl) : Entry := ⟨f.isPublic, f.name⟩

def Entry.ofMethodDecl (m : MethodDecl) : Entry := ⟨m.isPublic, m.name⟩

/-- What the text has to show of a class: its fields, its methods, and then its initializers. -/
def ClassEntry.ofDecl (d : ClassDecl) : ClassEntry :=
  ⟨⟨d.isPublic, d.name⟩, d.fields.map .ofFieldDecl, d.methods.map .ofMethodDecl ++ d.initializers⟩

/-- What the text has to show of a namespace: the classes that stand where it is open. -/
def NamespaceEntry.ofItems (items : List Item) (name : String) : NamespaceEntry :=
  ⟨name, ((Item.declarations defaultNamespace items).filter (·.nspace == name)).map
    fun d => .ofDecl d.cls⟩

/-- What the text has to show of items: the namespaces that hold classes. -/
def Item.contents (items : List Item) : List NamespaceEntry :=
  ((openings items).map (.ofItems items)).filter (!·.classes.isEmpty)

namespace Outline

variable {r : Registry} {ns : Nat} {c c' : Class}

theorem face_addField {f : FieldDecl} (h : addField r ns c f = .ok c') :
    c'.fields.map Field.face = c.fields.map Field.face ++ [f.face] ∧ c'.methods = c.methods ∧
      c'.head = c.head := by
  obtain ⟨_, -, new, rfl⟩ := addField_eq_ok h
  exact ⟨by rw [Class.fields_pushField, List.map_append]; rfl, rfl, rfl⟩

theorem face_addFields {fs : List FieldDecl} (h : fs.foldlM (addField r ns) c = .ok c') :
    c'.fields.map Field.face = c.fields.map Field.face ++ fs.map FieldDecl.face ∧
      c'.methods = c.methods ∧ c'.head = c.head := by
  refine foldlM_invariant (P := fun fs d =>
    d.fields.map Field.face = c.fields.map Field.face ++ fs.map FieldDecl.face ∧
      d.methods = c.methods ∧ d.head = c.head) h ⟨(List.append_nil _).symm, rfl, rfl⟩ ?_
  rintro fs f - d d' ⟨fields, methods, head⟩ hf
  obtain ⟨fields', methods', head'⟩ := face_addField hf
  exact ⟨by simp [fields', fields], methods'.trans methods, head'.trans head⟩

theorem entry_addMethod {m : MethodDecl} {s s' : Class × Array Warning}
    (h : addMethod r ns s m = .ok s') :
    s'.1.methods.map Entry.ofMethod = s.1.methods.map Entry.ofMethod ++ [.ofMethodDecl m] ∧
      s'.1.fields = s.1.fields ∧ s'.1.head = s.1.head := by
  obtain ⟨sig, c, hs, hc, hm⟩ := addMethod_eq_ok h
  simp only [signature, bind_eq_ok, Except.ok.injEq] at hs
  obtain ⟨_, -, _, -, rfl⟩ := hs
  obtain ⟨new, he⟩ := Class.addMethod?_iff.1 hm
  have methods : s'.1.methods.map Entry.ofMethod =
      c.methods.map Entry.ofMethod ++ [.ofMethodDecl m] := by
    rw [he, Class.methods_pushMethod, List.map_append]
    rfl
  obtain ⟨rfl, -⟩ | ⟨_, -, -, rfl⟩ := hc <;> exact ⟨methods, by rw [he]; rfl, by rw [he]; rfl⟩

theorem entry_addMethods {ms : List MethodDecl} {s s' : Class × Array Warning}
    (h : ms.foldlM (addMethod r ns) s = .ok s') :
    s'.1.methods.map Entry.ofMethod = s.1.methods.map Entry.ofMethod ++ ms.map .ofMethodDecl ∧
      s'.1.fields = s.1.fields ∧ s'.1.head = s.1.head := by
  refine foldlM_invariant (P := fun ms t =>
    t.1.methods.map Entry.ofMethod = s.1.methods.map Entry.ofMethod ++ ms.map .ofMethodDecl ∧
      t.1.fields = s.1.fields ∧ t.1.head = s.1.head) h ⟨(List.append_nil _).symm, rfl, rfl⟩ ?_
  rintro ms m - t t' ⟨methods, fields, head⟩ hm
  obtain ⟨methods', fields', head'⟩ := entry_addMethod hm
  exact ⟨by simp [methods', methods], fields'.trans fields, head'.trans head⟩

theorem not_isWord_constructorName : ∀ isStatic, ¬ IsWord (constructorName isStatic) := by decide

theorem entry_addInitializer (void : ClassId) {o : Outline} {isStatic : Bool}
    (free : ∀ e ∈ o.cls.methods.map Entry.ofMethod, e.name ≠ constructorName isStatic) :
    (addInitializer void o isStatic).cls.methods.map Entry.ofMethod =
        o.cls.methods.map Entry.ofMethod ++
          (if needsInitializer o.cls isStatic then [⟨!isStatic, constructorName isStatic⟩] else []) ∧
      (addInitializer void o isStatic).cls.fields = o.cls.fields ∧
      (addInitializer void o isStatic).cls.head = o.cls.head := by
  split
  · next needed =>
    obtain ⟨new, added⟩ := addInitializer_of_free void needed fun m hm =>
      free _ (List.mem_map_of_mem hm)
    rw [added]
    refine ⟨?_, rfl, rfl⟩
    rw [withInitializer, Class.methods_pushMethod, List.map_append]
    rfl
  · next needless =>
    rw [addInitializer, if_neg needless]
    simp

theorem entry_addInitializers (void : ClassId) {o : Outline}
    (words : ∀ e ∈ o.cls.methods.map Entry.ofMethod, IsWord e.name) :
    ([false, true].foldl (addInitializer void) o).cls.methods.map Entry.ofMethod =
        o.cls.methods.map Entry.ofMethod ++
          ((if needsInitializer o.cls false then [⟨true, ".ctor"⟩] else []) ++
            (if needsInitializer o.cls true then [⟨false, ".cctor"⟩] else [])) ∧
      ([false, true].foldl (addInitializer void) o).cls.fields = o.cls.fields ∧
      ([false, true].foldl (addInitializer void) o).cls.head = o.cls.head := by
  have free (isStatic : Bool) (e : Entry) (he : e ∈ o.cls.methods.map Entry.ofMethod) :
      e.name ≠ constructorName isStatic := fun same =>
    not_isWord_constructorName isStatic (same ▸ words e he)
  obtain ⟨methods, fields, head⟩ := entry_addInitializer void (free false)
  have free' : ∀ e ∈ (addInitializer void o false).cls.methods.map Entry.ofMethod,
      e.name ≠ constructorName true := by
    rw [methods]
    intro e he
    rcases List.mem_append.1 he with he | he
    · exact free true e he
    · split at he
      · rw [List.mem_singleton.1 he]
        decide
      · cases he
  obtain ⟨methods', fields', head'⟩ := entry_addInitializer void free'
  have same : needsInitializer (addInitializer void o false).cls true =
      needsInitializer o.cls true := by rw [needsInitializer, fields, needsInitializer]
  refine ⟨?_, fields'.trans fields, head'.trans head⟩
  rw [List.foldl_cons, List.foldl_cons, List.foldl_nil, methods', methods, same, List.append_assoc]
  rfl

theorem needsInitializer_eq {d : ClassDecl}
    (h : c.fields.map Field.face = d.fields.map FieldDecl.face) (isStatic : Bool) :
    needsInitializer c isStatic = d.initializes isStatic := by
  have faces := congrArg (List.any · fun f => f.2.1 == isStatic && f.2.2) h
  simp only [List.any_map] at faces
  exact faces

theorem entry_ofPlaced {void : ClassId} {w w' : Array Warning} {p : Placed} {o : Outline}
    {shell : Class} (hs : r.class? p.id = some shell)
    (bare : shell.fields = [] ∧ shell.methods = [])
    (words : ∀ m ∈ p.decl.methods, IsWord m.name) (h : ofPlaced r void w p = .ok (o, w')) :
    o.cls.fields.map Entry.ofField = p.decl.fields.map Entry.ofFieldDecl ∧
      o.cls.methods.map Entry.ofMethod =
        p.decl.methods.map Entry.ofMethodDecl ++ p.decl.initializers ∧
      o.cls.head = shell.head := by
  simp only [ofPlaced, bind_eq_ok, mapError_eq_ok, Prod.exists, Except.ok.injEq, Prod.mk.injEq,
    hs, Option.getD_some] at h
  obtain ⟨c, hc, c', _, hm, rfl, -⟩ := h
  obtain ⟨fields, methods, head⟩ := face_addFields hc
  obtain ⟨methods', fields', head'⟩ := entry_addMethods hm
  simp only [bare, List.map_nil, List.nil_append] at fields methods
  simp only [methods, List.map_nil, List.nil_append] at methods'
  have faces : c'.fields.map Field.face = p.decl.fields.map FieldDecl.face := by
    rw [fields', fields]
  obtain ⟨all, same, head''⟩ := entry_addInitializers void
    (o := ⟨p.nspace, p.id, c', p.decl.methods.map .declared⟩)
    (by rw [methods']; exact List.forall_mem_map.2 words)
  refine ⟨?_, ?_, (head''.trans head').trans head⟩
  · have entries := congrArg (List.map Prod.fst) faces
    rw [List.map_map, List.map_map] at entries
    rw [same]
    exact entries
  · rw [all, methods', needsInitializer_eq faces false, needsInitializer_eq faces true]
    rfl

end Outline
end ClassAsm
