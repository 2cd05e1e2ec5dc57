import ClassAsm.Proofs.Method.Locals
import ClassAsm.Proofs.Program.Jobs

/-! The classes of types. A registry is closed if it has the class of every type in it. Classes are
only added, and a type gets its class where a name is resolved in the registry itself; so a registry
stays closed from the built-in classes to the compiled program. -/

namespace ClassAsm

/-- The types of the signature have classes below a number. -/
structure Signature.Below (n : Nat) (s : Signature) : Prop where
  result : s.returnType.cls < n
  params : ∀ p ∈ s.params, p.2.cls < n

/-- The types in the class have classes below a number. -/
structure Class.Below (n : Nat) (c : Class) : Prop where
  fields : ∀ f ∈ c.fields, f.type.cls < n
  sigs : ∀ m ∈ c.methods, m.sig.Below n
  locals : ∀ m ∈ c.methods, ∀ l ∈ m.locals, l.2.cls < n

/-- The members of the class are where its indexes say. -/
structure Class.Indexed (c : Class) : Prop where
  fields : ∀ (name : String) (i : Nat), c.fieldTable.index[name]? = some i → i < c.fieldTable.size
  methods : ∀ (name : String) (i : Nat), c.methodTable.index[name]? = some i →
    i < c.methodTable.size

/-- The built-in classes have numbers below a number. -/
structure Builtins.Below (n : Nat) (b : Builtins) : Prop where
  i32 : b.i32 < n
  i64 : b.i64 < n
  f32 : b.f32 < n
  f64 : b.f64 < n
  string : b.string < n
  void : b.void < n

theorem Table.lt_size {α : Type} {key : α → String} (t : Table key) {name : String} {i : Nat}
    (h : t.index[name]? = some i) : i < t.size := by
  obtain ⟨_, found, -⟩ := Option.map_eq_some_iff.1 ((t.indexes name i).1 h)
  exact (Array.getElem?_eq_some_iff.1 found).1

theorem Class.indexed (c : Class) : c.Indexed where
  fields _ _ := c.fieldTable.lt_size
  methods _ _ := c.methodTable.lt_size

variable {n k : Nat}

theorem Signature.Below.mono {s : Signature} (h : s.Below n) (le : n ≤ k) : s.Below k :=
  ⟨h.result.trans_le le, fun p hp => (h.params p hp).trans_le le⟩

namespace Class.Below

variable {c : Class}

theorem mono (h : c.Below n) (le : n ≤ k) : c.Below k where
  fields f hf := (h.fields f hf).trans_le le
  sigs m hm := (h.sigs m hm).mono le
  locals m hm l hl := (h.locals m hm l hl).trans_le le

theorem of_bare (fields : c.fields = []) (methods : c.methods = []) : c.Below n := by
  refine ⟨?_, ?_, ?_⟩ <;> simp [fields, methods]

theorem pushField (h : c.Below n) {f : Field} (new : c.field? f.name = none)
    (type : f.type.cls < n) : (c.pushField f new).Below n where
  fields := by
    rw [fields_pushField]
    exact List.forall_mem_append.2 ⟨h.fields, List.forall_mem_singleton.2 type⟩
  sigs := h.sigs
  locals := h.locals

theorem pushMethod (h : c.Below n) {m : Method} (new : c.method? m.sig.name = none)
    (sig : m.sig.Below n) (locals : ∀ l ∈ m.locals, l.2.cls < n) :
    (c.pushMethod m new).Below n where
  fields := h.fields
  sigs := by
    rw [methods_pushMethod]
    exact List.forall_mem_append.2 ⟨h.sigs, List.forall_mem_singleton.2 sig⟩
  locals := by
    rw [methods_pushMethod]
    exact List.forall_mem_append.2 ⟨h.locals, List.forall_mem_singleton.2 locals⟩

theorem updateMethod (h : c.Below n) (name : String) {f : Method → Method}
    (locals : ∀ m, ∀ l ∈ (f m).locals, l.2.cls < n) : (c.updateMethod name f).Below n := by
  refine ⟨h.fields, ?_, ?_⟩ <;> rw [methods_updateMethod] <;> refine List.forall_mem_map.2 ?_ <;>
    intro m hm <;> split
  · exact h.sigs m hm
  · exact h.sigs m hm
  · exact locals m
  · exact h.locals m hm

end Class.Below

namespace Registry

/-- The class of every type is there, and so is every class that has a name. -/
structure Closed (r : Registry) : Prop where
  classes : ∀ c ∈ r.classes, c.Below r.classes.size
  builtins : ∀ p ∈ r.builtins, p.2 < r.classes.size
  spaces : ∀ n ∈ r.namespaces, ∀ p ∈ n.classes, p.2 < r.classes.size

theorem closed_base : base.Closed where
  classes c hc := by
    have listed := Array.mem_toList_iff.2 hc
    refine ⟨by simp [fields_base listed], fun m hm => ?_, fun m hm => ?_⟩
    · obtain ⟨n, op, key, code, rfl⟩ := template_base listed hm
      have below : n.classId < base.classes.size := by cases n <;> decide
      refine ⟨below, fun p hp => ?_⟩
      obtain ⟨_, -, rfl⟩ := List.mem_map.1 hp
      exact below
    · obtain ⟨n, op, key, code, rfl⟩ := template_base listed hm
      exact nofun
  builtins := by
    have names : base.builtins = [("none", 5), ("void", 5), ("string", 4), ("f64", 3), ("f32", 2),
      ("i64", 1), ("i32", 0)] := rfl
    rw [names, size_base]
    decide
  spaces := by simp [namespaces_base]

namespace Closed

variable {r r' : Registry} {id : ClassId} {c : Class}

theorem class? (h : r.Closed) (hc : r.class? id = some c) : c.Below r.classes.size :=
  h.classes c (Array.mem_of_getElem? hc)

theorem resolve? (h : r.Closed) {name : TypeName} {ns : Nat} {t : TypeRef}
    (ht : r.resolve? name ns = some t) : t.cls < r.classes.size := by
  simp only [Registry.resolve?, Option.bind_eq_bind, Option.bind_eq_some_iff, Option.pure_def,
    Option.some.injEq] at ht
  obtain ⟨id, found, rfl⟩ := ht
  rcases Option.or_eq_some_iff.1 found with builtin | ⟨-, declared⟩
  · obtain ⟨_, _, he, -⟩ := List.lookup_eq_some_iff.1 builtin
    exact h.builtins (name.base, id) (by simp [he])
  · obtain ⟨n, hn, listed⟩ := Option.bind_eq_some_iff.1 declared
    exact h.spaces n (List.mem_of_getElem? hn) _ ((n.indexes _ _).1 listed)

theorem openNamespace (h : r.Closed) (name : String) : (r.openNamespace name).1.Closed := by
  obtain he | ⟨-, he⟩ := openNamespace_cases r name
  · rwa [he]
  · rw [he]
    exact ⟨h.classes, h.builtins, forall_mem_concat h.spaces nofun⟩

theorem declareClass? (h : r.Closed) {ns : Nat} {name : String} {isPublic : Bool}
    (hd : r.declareClass? ns name isPublic = some (r', id)) : r'.Closed := by
  obtain ⟨n, hn, new, rfl, rfl⟩ := declareClass?_iff.1 hd
  have more : r.classes.size ≤ r.classes.size + 1 := Nat.le_succ _
  have size (c : Class) : (r.classes.push c).size = r.classes.size + 1 := Array.size_push c
  have old : ∀ n ∈ r.namespaces, ∀ p ∈ n.classes, p.2 < r.classes.size + 1 :=
    fun n hn p hp => (h.spaces n hn p hp).trans_le more
  refine ⟨fun c hc => ?_, fun p hp => ?_, forall_mem_set ?_ ?_⟩
  · rw [size]
    rcases Array.mem_push.1 hc with hc | rfl
    · exact (h.classes c hc).mono more
    · exact .of_bare rfl rfl
  · rw [size]
    exact (h.builtins p hp).trans_le more
  · rwa [size]
  · rw [size]
    simpa [or_imp, forall_and] using fun a b => old n (List.mem_of_getElem? hn) (a, b)

/-- A class may be exchanged for another whose types have classes. -/
theorem updateClass (h : r.Closed) {f : Class → Class}
    (hf : ∀ c, r.class? id = some c → (f c).Below r.classes.size) :
    (r.updateClass id f).Closed := by
  have size : (r.classes.modify id f).size = r.classes.size := Array.size_modify ..
  refine ⟨fun c hc => ?_, fun p hp => ?_, fun n hn p hp => ?_⟩
  · obtain ⟨i, hi⟩ := Array.mem_iff_getElem?.1 hc
    simp only [Registry.updateClass, Array.getElem?_modify] at hi ⊢
    rw [size]
    split at hi
    · next here =>
      obtain ⟨d, hd, rfl⟩ := Option.map_eq_some_iff.1 hi
      exact hf d (here ▸ hd)
    · exact h.class? hi
  · exact size.symm ▸ h.builtins p hp
  · exact size.symm ▸ h.spaces n hn p hp

end Closed
end Registry

open Registry

/-! Places. -/

namespace Placement

/-- Whatever is at a number or an index is there. -/
structure InRange (p : Placement) : Prop where
  closed : p.registry.Closed
  here : p.nspace < p.registry.namespaces.length
  placed : ∀ q ∈ p.placed,
    q.id < p.registry.classes.size ∧ q.nspace < p.registry.namespaces.length

theorem InRange.start : InRange { registry := base } := ⟨closed_base, Nat.zero_lt_one, nofun⟩

theorem InRange.add {p p' : Placement} (h : p.InRange) {item : Item} (ha : p.add item = .ok p') :
    p'.InRange := by
  cases item with
  | nspace name span =>
    obtain rfl := add_nspace_eq_ok ha
    have opened := (p.registry.openNamespace_spec name).2
    have more : p.registry.namespaces.length ≤
        (p.registry.openNamespace name).1.namespaces.length := by
      obtain he | ⟨-, he⟩ := openNamespace_cases p.registry name <;> simp [he]
    refine ⟨h.closed.openNamespace name, ?_, fun q hq => ?_⟩
    · simpa [Registry.spaces] using (List.getElem?_eq_some_iff.1 opened).1
    · obtain ⟨id, nspace⟩ := h.placed q hq
      exact ⟨by rwa [classes_openNamespace], nspace.trans_le more⟩
  | cls decl =>
    obtain ⟨r, id, hd, rfl⟩ := add_cls_eq_ok ha
    have closed := h.closed.declareClass? hd
    obtain ⟨n, -, new, rfl, rfl⟩ := declareClass?_iff.1 hd
    refine ⟨closed, by simpa using h.here, List.forall_mem_cons.2 ⟨?_, fun q hq => ?_⟩⟩
    · simpa using h.here
    · obtain ⟨id, nspace⟩ := h.placed q hq
      exact ⟨by simpa using Nat.lt_succ_of_lt id, by simpa using nspace⟩

theorem InRange.addAll {items : List Item} {p p' : Placement} (h : p.InRange)
    (ha : items.foldlM Placement.add p = .ok p') : p'.InRange :=
  foldlM_invariant (P := fun _ p => p.InRange) ha h fun _ _ _ _ _ h ha => h.add ha

end Placement

/-! Members. -/

namespace Outline

variable {r : Registry} {ns : Nat} {c c' : Class}

theorem below_addField (h : r.Closed) (hc : c.Below r.classes.size) {f : FieldDecl}
    (ha : addField r ns c f = .ok c') : c'.Below r.classes.size := by
  obtain ⟨type, resolved, new, rfl⟩ := addField_eq_ok ha
  exact hc.pushField new (h.resolve? (resolve_eq_ok.1 resolved))

theorem below_signature (h : r.Closed) {m : MethodDecl} {sig : Signature}
    (hs : signature r ns c m = .ok sig) : sig.Below r.classes.size := by
  simp only [signature, bind_eq_ok, resolve_eq_ok, Except.ok.injEq] at hs
  obtain ⟨result, hr, params, hp, rfl⟩ := hs
  refine ⟨h.resolve? hr, fun q hq => ?_⟩
  obtain ⟨p, -, made⟩ := exists_of_mem_forall₂ (forall₂_of_mapM hp) hq
  obtain ⟨type, resolved, made⟩ := bind_eq_ok.1 made
  obtain rfl := Except.ok.inj made
  exact h.resolve? (resolve_eq_ok.1 resolved)

theorem below_addMethod (h : r.Closed) {s s' : Class × Array Warning}
    (hc : s.1.Below r.classes.size) {m : MethodDecl} (ha : addMethod r ns s m = .ok s') :
    s'.1.Below r.classes.size := by
  obtain ⟨sig, c, hs, operator, added⟩ := addMethod_eq_ok ha
  have same : c.Below r.classes.size := by
    obtain ⟨rfl, -⟩ | ⟨_, -, -, rfl⟩ := operator
    · exact hc
    · exact ⟨hc.fields, hc.sigs, hc.locals⟩
  obtain ⟨new, he⟩ := Class.addMethod?_iff.1 added
  rw [he]
  exact same.pushMethod new (below_signature h hs) nofun

theorem below_addInitializer {n void : Nat} (hv : void < n) {o : Outline} (ho : o.cls.Below n)
    (isStatic : Bool) : (addInitializer void o isStatic).cls.Below n := by
  obtain same | ⟨new, added⟩ := addInitializer_cases void o isStatic
  · rwa [same]
  · rw [added]
    exact ho.pushMethod new ⟨hv, nofun⟩ nofun

theorem below_ofPlaced (h : r.Closed) {void : ClassId} (hv : void < r.classes.size)
    {w w' : Array Warning} {p : Placed} {o : Outline} (ho : ofPlaced r void w p = .ok (o, w')) :
    o.cls.Below r.classes.size := by
  simp only [ofPlaced, bind_eq_ok, mapError_eq_ok, Prod.exists, Except.ok.injEq,
    Prod.mk.injEq] at ho
  obtain ⟨c, hc, c', _, hm, rfl, -⟩ := ho
  have shell (blank : Class) (fields : blank.fields = []) (methods : blank.methods = []) :
      ((r.class? p.id).getD blank).Below r.classes.size := by
    cases hr : r.class? p.id with
    | none => exact .of_bare fields methods
    | some c => exact h.class? hr
  have fields := foldlM_invariant (P := fun _ (c : Class) => c.Below r.classes.size) hc
    (shell _ rfl rfl)
    fun _ _ _ _ _ hc ha => below_addField h hc ha
  have methods := foldlM_invariant
    (P := fun _ (s : Class × Array Warning) => s.1.Below r.classes.size) hm fields
    fun _ _ _ _ _ hc ha => below_addMethod h hc ha
  exact below_addInitializer hv (below_addInitializer hv methods false) true

end Outline

namespace Program

/-- Whatever is at a number or an index is there. -/
structure Declared.InRange (d : Declared) : Prop where
  closed : d.registry.Closed
  builtins : d.builtins.Below d.registry.classes.size
  outlines : ∀ o ∈ d.outlines, o.id < d.registry.classes.size ∧
    o.nspace < d.registry.namespaces.length ∧ o.cls.Below d.registry.classes.size

/-- Members that have types of a registry leave it closed. -/
theorem closed_members {r : Registry} {os : List Outline} (h : r.Closed)
    (ho : ∀ o ∈ os, o.cls.Below r.classes.size) :
    (os.foldl (fun r o => r.updateClass o.id fun _ => o.cls) r).Closed ∧
      (os.foldl (fun r o => r.updateClass o.id fun _ => o.cls) r).classes.size =
        r.classes.size := by
  induction os generalizing r with
  | nil => exact ⟨h, rfl⟩
  | cons o os ih =>
    obtain ⟨here, rest⟩ := List.forall_mem_cons.1 ho
    have size : (r.updateClass o.id fun _ => o.cls).classes.size = r.classes.size :=
      Array.size_modify ..
    have last := ih (@Closed.updateClass r o.id h (fun _ => o.cls) fun _ _ => here)
      (by rwa [size])
    rwa [size] at last

theorem declare_inRange {items : List Item} {d : Declared} (h : declare items = .ok d) :
    d.InRange := by
  obtain ⟨p, arises⟩ := declare_arises h
  have placed := Placement.InRange.start.addAll arises.placed
  have size : 6 ≤ p.registry.classes.size := by
    obtain ⟨shells, classes, -⟩ := (Placement.Ordered.start.addAll arises.placed).classes
    rw [← Array.length_toList, classes, List.length_append]
    exact Nat.le_add_right 6 _
  have builtins : d.builtins.Below p.registry.classes.size := by
    rw [arises.builtins]
    constructor <;> exact lt_of_lt_of_le (by decide) size
  have outlines : ∀ o ∈ d.outlines, o.id < p.registry.classes.size ∧
      o.nspace < p.registry.namespaces.length ∧ o.cls.Below p.registry.classes.size := by
    intro o ho
    obtain ⟨q, hq, w, w', made⟩ := exists_of_mem_forall₂ arises.outlines ho
    obtain ⟨id, nspace⟩ := placed.placed q (List.mem_reverse.1 hq)
    have shell := (Placement.Ordered.start.addAll arises.placed).shell q hq
    rw [(Outline.ofPlaced_eq_ok shell made).1, Outline.nspace_ofPlaced made]
    exact ⟨id, nspace, Outline.below_ofPlaced placed.closed builtins.void made⟩
  obtain ⟨closed, same⟩ := closed_members placed.closed fun o ho => (outlines o ho).2.2
  have spaces := namespaces_members d.outlines p.registry
  rw [← arises.registry] at closed same spaces
  exact ⟨closed, same ▸ builtins, same ▸ spaces ▸ outlines⟩

end Program
end ClassAsm
