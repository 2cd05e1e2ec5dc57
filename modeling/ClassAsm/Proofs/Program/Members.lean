import ClassAsm.Proofs.Program.Jobs
import ClassAsm.Proofs.Registry.Orderly

/-! The members of declared classes. The methods of a class have different names and signatures that
say where they are, and whatever is registered for an operation is a method that takes its operands
as arguments. None of this changes the namespaces or the names of classes. -/

namespace ClassAsm

namespace Class

/-- What a class has declared is its own. -/
structure Owns (c : Class) : Prop where
  sigs : ∀ m ∈ c.methods, m.sig.nspace = c.nspace ∧ m.sig.owner = c.name ∧
    '(' ∉ m.sig.name.toList ∧ m.sig.isBuiltin = false
  operators : ∀ p ∈ c.operators, ∃ m, c.method? p.2 = some m ∧ m.sig.isOperator = true

variable {c : Class}

theorem Owns.of_bare (hm : c.methods = []) (ho : c.operators = []) : c.Owns :=
  ⟨by simp [hm], by simp [ho]⟩

theorem Owns.isOperator (h : c.Owns) {op : Operation} {m : Method} (hm : c.operator? op = some m) :
    m.sig.isOperator = true := by
  simp only [operator?, Option.bind_eq_bind, Option.bind_eq_some_iff] at hm
  obtain ⟨key, -, name, hn, hm⟩ := hm
  obtain ⟨l₁, l₂, hl, -⟩ := List.lookup_eq_some_iff.1 hn
  obtain ⟨m', hm', ho⟩ := h.operators (key, name) (by simp [hl])
  rw [hm] at hm'
  exact Option.some.inj hm' ▸ ho

theorem method?_pushMethod_of_some {name : String} {m m' : Method} (h : c.method? name = some m)
    (new : c.method? m'.sig.name = none) : (c.pushMethod m' new).method? name = some m := by
  rw [method?_pushMethod, h]
  rfl

theorem Owns.pushMethod (h : c.Owns) {m : Method} (new : c.method? m.sig.name = none)
    (hm : m.sig.nspace = c.nspace ∧ m.sig.owner = c.name ∧ '(' ∉ m.sig.name.toList ∧
      m.sig.isBuiltin = false) : (c.pushMethod m new).Owns := by
  refine ⟨?_, ?_⟩
  · rw [methods_pushMethod]
    exact List.forall_mem_append.2 ⟨h.sigs, List.forall_mem_singleton.2 hm⟩
  · intro p hp
    obtain ⟨m', hm', ho⟩ := h.operators p hp
    exact ⟨m', method?_pushMethod_of_some hm' new, ho⟩

theorem Owns.addOperator (h : c.Owns) {key : String} {m : Method}
    (new : (c.registerOperator key m.sig.name).method? m.sig.name = none)
    (hm : m.sig.nspace = c.nspace ∧ m.sig.owner = c.name ∧ '(' ∉ m.sig.name.toList ∧
      m.sig.isBuiltin = false) (ho : m.sig.isOperator = true) :
    ((c.registerOperator key m.sig.name).pushMethod m new).Owns := by
  have free : c.method? m.sig.name = none := new
  refine ⟨(h.pushMethod free hm).sigs, fun p hp => ?_⟩
  rcases List.mem_cons.1 hp with rfl | hp
  · refine ⟨m, ?_, ho⟩
    rw [method?_pushMethod, new, if_pos rfl]
    rfl
  · exact (h.pushMethod free hm).operators p (List.mem_of_mem_filter hp)

end Class

def MethodSource.name : MethodSource → String
  | .declared m => m.name
  | .initializer isStatic => Outline.constructorName isStatic

namespace Outline

variable {r : Registry} {ns : Nat} {c c' : Class}

theorem signature_eq_ok {m : MethodDecl} {sig : Signature} (h : signature r ns c m = .ok sig) :
    sig.nspace = c.nspace ∧ sig.owner = c.name ∧ sig.name = m.name ∧ sig.isBuiltin = false ∧
      sig.isOperator = (operatorKey? m).any Operation.keys.contains := by
  simp only [signature, bind_eq_ok, Except.ok.injEq] at h
  obtain ⟨_, -, _, -, rfl⟩ := h
  exact ⟨rfl, rfl, rfl, rfl, rfl⟩

theorem names_ofPlaced {void : ClassId} {w w' : Array Warning} {p : Placed} {o : Outline}
    (shell : ∀ c, r.class? p.id = some c → c.methods = [])
    (h : ofPlaced r void w p = .ok (o, w')) :
    List.Forall₂ (fun m source => m.sig.name = source.name) o.cls.methods o.sources :=
  forall₂_ofPlaced (fun signed => (signature_eq_ok signed).2.2.1) (fun _ _ => rfl) shell h

theorem owns_addField {f : FieldDecl} (h : c.Owns) (ha : addField r ns c f = .ok c') :
    c'.Owns ∧ c'.head = c.head := by
  obtain ⟨_, -, _, rfl⟩ := addField_eq_ok ha
  exact ⟨⟨h.sigs, h.operators⟩, rfl⟩

theorem owns_addFields {fs : List FieldDecl} (h : c.Owns)
    (ha : fs.foldlM (addField r ns) c = .ok c') : c'.Owns ∧ c'.head = c.head := by
  refine foldlM_invariant (P := fun _ d => d.Owns ∧ d.head = c.head) ha ⟨h, rfl⟩ ?_
  rintro _ f _ d d' ⟨owns, same⟩ hf
  obtain ⟨owns', same'⟩ := owns_addField owns hf
  exact ⟨owns', same'.trans same⟩

theorem owns_addMethod {m : MethodDecl} {s s' : Class × Array Warning} (h : s.1.Owns)
    (hw : IsWord m.name) (ha : addMethod r ns s m = .ok s') :
    s'.1.Owns ∧ s'.1.head = s.1.head := by
  obtain ⟨sig, c, hs, hc, hm⟩ := addMethod_eq_ok ha
  obtain ⟨hns, howner, hname, hb, hop⟩ := signature_eq_ok hs
  have place : sig.nspace = s.1.nspace ∧ sig.owner = s.1.name ∧ '(' ∉ sig.name.toList ∧
      sig.isBuiltin = false := ⟨hns, howner, hname ▸ hw.notMem rfl, hb⟩
  obtain ⟨rfl, -⟩ | ⟨key, hk, known, rfl⟩ := hc
  · obtain ⟨new, he⟩ := Class.addMethod?_iff.1 hm
    rw [he]
    exact ⟨h.pushMethod new place, rfl⟩
  · rw [← hname] at hm
    obtain ⟨new, he⟩ := Class.addMethod?_iff.1 hm
    rw [he]
    exact ⟨h.addOperator new place (by simpa [hk, hop] using known), rfl⟩

theorem owns_addMethods {ms : List MethodDecl} {s s' : Class × Array Warning} (h : s.1.Owns)
    (hw : ∀ m ∈ ms, IsWord m.name) (ha : ms.foldlM (addMethod r ns) s = .ok s') :
    s'.1.Owns ∧ s'.1.head = s.1.head := by
  refine foldlM_invariant (P := fun _ t => t.1.Owns ∧ t.1.head = s.1.head) ha ⟨h, rfl⟩ ?_
  rintro _ m hm t t' ⟨owns, same⟩ added
  obtain ⟨owns', same'⟩ := owns_addMethod owns (hw m hm) added
  exact ⟨owns', same'.trans same⟩

theorem owns_addInitializer (void : ClassId) {o : Outline} (h : o.cls.Owns) (isStatic : Bool) :
    (addInitializer void o isStatic).cls.Owns ∧
      (addInitializer void o isStatic).cls.head = o.cls.head := by
  obtain same | ⟨new, added⟩ := addInitializer_cases void o isStatic
  · rw [same]
    exact ⟨h, rfl⟩
  · have name : '(' ∉ (constructorName isStatic).toList := by cases isStatic <;> decide
    rw [added]
    exact ⟨h.pushMethod new ⟨rfl, rfl, name, rfl⟩, rfl⟩

/-- A class that is placed and has no members yet gets its own. -/
theorem owns_ofPlaced {void : ClassId} {w w' : Array Warning} {p : Placed} {o : Outline}
    {shell : Class} (hs : r.class? p.id = some shell) (owns : shell.Owns)
    (hw : ∀ m ∈ p.decl.methods, IsWord m.name) (h : ofPlaced r void w p = .ok (o, w')) :
    o.cls.Owns ∧ o.cls.head = shell.head := by
  simp only [ofPlaced, bind_eq_ok, mapError_eq_ok, Prod.exists, Except.ok.injEq, Prod.mk.injEq,
    hs, Option.getD_some] at h
  obtain ⟨c, hc, c', _, hm, rfl, -⟩ := h
  obtain ⟨owns, fields⟩ := owns_addFields owns hc
  obtain ⟨owns, methods⟩ := owns_addMethods owns hw hm
  obtain ⟨owns, first⟩ := owns_addInitializer void
    (o := ⟨p.nspace, p.id, c', p.decl.methods.map .declared⟩) owns false
  obtain ⟨owns, second⟩ := owns_addInitializer void owns true
  exact ⟨owns, ((second.trans first).trans methods).trans fields⟩

end Outline

namespace Placement

/-- Classes are placed in namespaces, by their names and still without members. -/
structure Places (p : Placement) : Prop where
  housed : p.registry.Housed
  bare : ∀ (id : Nat) (c : Class), 6 ≤ id → p.registry.class? id = some c →
    c.methods = [] ∧ c.operators = []
  words : ∀ q ∈ p.placed, ∀ m ∈ q.decl.methods, IsWord m.name

theorem Places.start : Places { registry := Registry.base } where
  housed := .base
  bare id c hi hc := by
    obtain ⟨lt, -⟩ := Array.getElem?_eq_some_iff.1 hc
    exact absurd lt (not_lt.2 (Registry.size_base ▸ hi))
  words := nofun

theorem Places.add {p p' : Placement} (h : p.Places) {item : Item} (hw : item.IsWorded)
    (ha : p.add item = .ok p') : p'.Places := by
  cases item with
  | nspace name span =>
    obtain rfl := add_nspace_eq_ok ha
    have same := p.registry.classes_openNamespace name
    exact
      { housed := h.housed.openNamespace hw
        bare := by simpa only [Registry.class?, same] using h.bare
        words := h.words }
  | cls decl =>
    obtain ⟨r, id, hd, rfl⟩ := add_cls_eq_ok ha
    obtain ⟨-, c, hc, methods, operators⟩ := Registry.declareClass?_eq_some hd
    refine
      { housed := h.housed.declareClass? hw.1 hd
        bare := fun i c' hi hc' => ?_
        words := List.forall_mem_cons.2 ⟨hw.2, h.words⟩ }
    rw [Registry.class?, hc, Registry.class?_push] at hc'
    split at hc'
    · cases hc'
      exact ⟨methods, operators⟩
    · exact h.bare i c' hi hc'

theorem Places.addAll {items : List Item} {p p' : Placement} (h : p.Places)
    (hw : ∀ i ∈ items, i.IsWorded) (ha : items.foldlM Placement.add p = .ok p') : p'.Places :=
  foldlM_invariant (P := fun _ p => p.Places) ha h fun _ i hi _ _ h ha => h.add (hw i hi) ha

end Placement

namespace Program

open Registry

/-- Every outline of a program comes from a placed class without methods. -/
theorem exists_ofPlaced {items : List Item} {d : Declared} (h : declare items = .ok d)
    {o : Outline} (ho : o ∈ d.outlines) : ∃ r p w w',
      (∀ c, Registry.class? r p.id = some c → c.methods = []) ∧
        Outline.ofPlaced r d.builtins.void w p = .ok (o, w') := by
  obtain ⟨placement, arises⟩ := declare_arises h
  obtain ⟨q, hq, w, w', made⟩ := exists_of_mem_forall₂ arises.outlines ho
  exact ⟨_, q, w, w', (Placement.Ordered.start.addAll arises.placed).shell q hq, made⟩

/-- The members of classes leave everything else as it was. -/
theorem agrees_members {r r' : Registry} (os : List Outline) (h : Agrees r r')
    (ho : ∀ o ∈ os, ∃ c, r.class? o.id = some c ∧ o.cls.head = c.head) :
    Agrees r (os.foldl (fun r o => r.updateClass o.id fun _ => o.cls) r') := by
  induction os generalizing r' with
  | nil => exact h
  | cons o os ih =>
    obtain ⟨here, rest⟩ := List.forall_mem_cons.1 ho
    obtain ⟨c, hc, same⟩ := here
    apply ih (h.updateClass fun c' hc' => ?_) rest
    have := h o.id
    rw [hc, hc'] at this
    exact same.trans (Option.some.inj this).symm

/-- The classes of a program are housed and have their own members. -/
structure Declared.Owned (d : Declared) : Prop where
  housed : d.registry.Housed
  owns : ∀ o ∈ d.outlines, o.cls.Owns

theorem declare_owned {items : List Item} {d : Declared} (hw : ∀ i ∈ items, i.IsWorded)
    (h : declare items = .ok d) : d.Owned := by
  obtain ⟨placement, arises⟩ := declare_arises h
  have places := Placement.Places.start.addAll hw arises.placed
  have ordered := Placement.Ordered.start.addAll arises.placed
  obtain ⟨shells, hc, hl, -⟩ := ordered.classes
  -- each outline has the number of a class that is there and has no members
  have members : ∀ o ∈ d.outlines, ∃ c, placement.registry.class? o.id = some c ∧ o.cls.Owns ∧
      o.cls.head = c.head := by
    intro o ho
    obtain ⟨p, hp, w, w', made⟩ := exists_of_mem_forall₂ arises.outlines ho
    have hid : p.id ∈ List.range' 6 placement.placed.length := by
      rw [← ordered.ids]
      exact List.mem_map_of_mem hp
    have range := List.mem_range'_1.1 hid
    have lt : p.id < placement.registry.classes.size := by
      have size : placement.registry.classes.size = 6 + placement.placed.length := by
        rw [← Array.length_toList, hc, List.length_append, hl, Array.length_toList, size_base]
      rw [size]
      exact range.2
    have found : placement.registry.class? p.id = some placement.registry.classes[p.id] :=
      Array.getElem?_eq_getElem lt
    obtain ⟨methods, operators⟩ := places.bare _ _ range.1 found
    obtain ⟨owns, same⟩ := Outline.owns_ofPlaced found (.of_bare methods operators)
      (places.words p (List.mem_reverse.1 hp)) made
    rw [(Outline.ofPlaced_eq_ok (ordered.shell p hp) made).1]
    exact ⟨_, found, owns, same⟩
  have agrees := agrees_members d.outlines (.refl placement.registry) fun o ho => by
    obtain ⟨c, hc, -, same⟩ := members o ho
    exact ⟨c, hc, same⟩
  have spaces := namespaces_members d.outlines placement.registry
  rw [← arises.registry] at agrees spaces
  exact ⟨places.housed.of_agrees agrees spaces, fun o ho => by
    obtain ⟨_, -, owns, -⟩ := members o ho
    exact owns⟩

end Program
end ClassAsm
