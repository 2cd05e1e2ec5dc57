import ClassAsm.Proofs.Result
import ClassAsm.Proofs.Renaming.Methods

/-! The declarations of a program. Classes are numbered in the order in which they are placed, after
the built-in ones, and each gets its members under its own number. So the bodies are compiled
against a registry in which the built-in classes are as they were installed. -/

namespace ClassAsm

open Registry

section

variable {α β γ : Type} {l : List α} {l' : List β}

theorem map_eq_of_forall₂ {f : α → γ} {g : β → γ}
    (h : List.Forall₂ (fun a b => f a = g b) l l') : l.map f = l'.map g := by
  rw [← List.forall₂_eq_eq_eq, List.forall₂_map_left_iff, List.forall₂_map_right_iff]
  exact h

theorem exists_of_mem_forall₂ {R : α → β → Prop} (h : List.Forall₂ R l l') {b : β} (hb : b ∈ l') :
    ∃ a ∈ l, R a b := by
  obtain ⟨i, hi, rfl⟩ := List.mem_iff_getElem.1 hb
  exact ⟨_, List.get_mem l _, h.get (h.length_eq ▸ hi) hi⟩

end

theorem Registry.toList_updateClass {r : Registry} {pre rest : List Class} {c : Class}
    (h : r.classes.toList = pre ++ c :: rest) (f : Class → Class) :
    (r.updateClass pre.length f).classes.toList = pre ++ f c :: rest := by
  simp only [updateClass, Array.toList_modify, h]
  clear h
  induction pre with
  | nil => rfl
  | cons p pre ih => rw [List.cons_append, List.length_cons, List.modify_succ_cons, ih]; rfl

namespace Outline

variable {r : Registry} {ns : Nat}

theorem resolve_eq_ok {name : String} {span : Span} {t : TypeRef} :
    resolve r ns name span = .ok t ↔ r.resolve? (TypeName.parse name) ns = some t := by
  unfold resolve
  split
  · next found => rw [found, Except.ok.injEq, Option.some.injEq]
  · next missing => simp [missing]

theorem addField_eq_ok {c c' : Class} {f : FieldDecl} (h : addField r ns c f = .ok c') :
    ∃ type, resolve r ns f.typeName f.span = .ok type ∧ ∃ new : c.field? f.name = none,
      c' = c.pushField ⟨f.name, type, f.isPublic, f.isStatic, f.default, f.span⟩ new := by
  simp only [addField, bind_eq_ok] at h
  obtain ⟨type, resolved, h⟩ := h
  split at h
  · next hf =>
    obtain rfl := Except.ok.inj h
    exact ⟨type, resolved, Class.addField?_iff.1 hf⟩
  · cases h

/-- A declared method is added to its class, where it may have become an operator before. -/
theorem addMethod_eq_ok {s s' : Class × Array Warning} {m : MethodDecl}
    (h : addMethod r ns s m = .ok s') :
    ∃ sig c, signature r ns s.1 m = .ok sig ∧
      (c = s.1 ∧ (operatorKey? m).any Operation.keys.contains = false ∨
        ∃ key, operatorKey? m = some key ∧ Operation.keys.contains key = true ∧
          c = s.1.registerOperator key m.name) ∧
      c.addMethod? { sig := sig, span := m.span } = some s'.1 := by
  simp only [addMethod, bind_eq_ok, mapError_eq_ok] at h
  obtain ⟨sig, hs, h⟩ := h
  split at h
  · next hm =>
    obtain rfl := Except.ok.inj h
    refine ⟨sig, _, hs, ?_, hm⟩
    split
    · next hk => exact .inl ⟨rfl, by rw [hk]; rfl⟩
    · next key hk =>
      split
      · next known => exact .inr ⟨key, hk, known, rfl⟩
      · next unknown => exact .inl ⟨rfl, by rw [hk]; exact Bool.eq_false_iff.2 unknown⟩
  · cases h

/-- A method that is no operator is added with its signature, and nothing is warned about. -/
theorem addMethod_of_plain {m : MethodDecl} {sig : Signature} {c c' : Class} {w : Array Warning}
    (plain : operatorKey? m = none) (hs : signature r ns c m = .ok sig)
    (added : c.addMethod? { sig := sig, span := m.span } = some c') :
    addMethod r ns (c, w) m = .ok (c', w) := by
  simp only [addMethod, mapError_eq_ok.2 hs, ok_bind, plain, added]

theorem methods_addFields {fs : List FieldDecl} {c c' : Class}
    (h : fs.foldlM (addField r ns) c = .ok c') : c'.methods = c.methods := by
  refine foldlM_invariant (P := fun _ d => d.methods = c.methods) h rfl ?_
  intro _ f _ d d' same hf
  obtain ⟨_, -, _, rfl⟩ := addField_eq_ok hf
  exact same

theorem methods_addMethod {s s' : Class × Array Warning} {m : MethodDecl}
    (h : addMethod r ns s m = .ok s') :
    ∃ sig, signature r ns s.1 m = .ok sig ∧
      s'.1.methods = s.1.methods ++ [{ sig := sig, span := m.span }] := by
  obtain ⟨sig, c, hs, hc, hm⟩ := addMethod_eq_ok h
  obtain ⟨new, he⟩ := Class.addMethod?_iff.1 hm
  refine ⟨sig, hs, ?_⟩
  rw [he, Class.methods_pushMethod]
  obtain ⟨rfl, -⟩ | ⟨_, -, -, rfl⟩ := hc <;> rfl

theorem names_signature {c : Class} {m : MethodDecl} {sig : Signature}
    (h : signature r ns c m = .ok sig) : sig.params.map Prod.fst = m.params.map (·.name) := by
  simp only [signature, bind_eq_ok, Except.ok.injEq] at h
  obtain ⟨_, -, params, hp, rfl⟩ := h
  refine (map_eq_of_forall₂ ((forall₂_of_mapM hp).imp fun p q made => ?_)).symm
  obtain ⟨_, -, made⟩ := bind_eq_ok.1 made
  exact congrArg Prod.fst (Except.ok.inj made)

/-- The outline with an initializer behind its methods. -/
def withInitializer (void : ClassId) (o : Outline) (isStatic : Bool)
    (new : o.cls.method? (initializerMethod o.cls void isStatic).sig.name = none) : Outline :=
  { o with
    cls := o.cls.pushMethod (initializerMethod o.cls void isStatic) new
    sources := o.sources ++ [.initializer isStatic] }

/-- An initializer is added under a free name, or the outline stays as it is. -/
theorem addInitializer_cases (void : ClassId) (o : Outline) (isStatic : Bool) :
    addInitializer void o isStatic = o ∨ ∃ new,
      addInitializer void o isStatic = o.withInitializer void isStatic new := by
  unfold addInitializer
  split
  · split
    · next added =>
      obtain ⟨free, rfl⟩ := Class.addMethod?_iff.1 added
      exact .inr ⟨free, rfl⟩
    · exact .inl rfl
  · exact .inl rfl

theorem addInitializer_of_free (void : ClassId) {o : Outline} {isStatic : Bool}
    (needed : needsInitializer o.cls isStatic = true)
    (free : ∀ m ∈ o.cls.methods, m.sig.name ≠ constructorName isStatic) : ∃ new,
    addInitializer void o isStatic = o.withInitializer void isStatic new := by
  have unnamed : o.cls.method? (initializerMethod o.cls void isStatic).sig.name = none := by
    rw [Class.method?_eq]
    exact List.find?_eq_none.2 fun m hm he => free m hm (eq_of_beq he)
  refine ⟨unnamed, ?_⟩
  rw [addInitializer, if_pos needed, Class.addMethod?_iff.2 ⟨unnamed, rfl⟩, withInitializer]

/-- A method whose body comes from the source has no body yet, and the declared parameters. -/
def Stands (m : Method) (source : MethodSource) : Prop :=
  m.body = .pending ∧ ∀ decl, source = .declared decl →
    m.sig.params.map Prod.fst = decl.params.map (·.name)

/-- Every method stands for its source. -/
def Linked (o : Outline) : Prop := List.Forall₂ Stands o.cls.methods o.sources

section

variable {R : Method → MethodSource → Prop}

/-- What holds of every method as it is added holds of all of them and their sources. -/
theorem forall₂_addMethods (one : ∀ {c m sig}, signature r ns c m = .ok sig →
      R { sig := sig, span := m.span } (.declared m)) {ms : List MethodDecl}
    {s s' : Class × Array Warning} (bare : s.1.methods = [])
    (ha : ms.foldlM (addMethod r ns) s = .ok s') :
    List.Forall₂ R s'.1.methods (ms.map .declared) := by
  refine foldlM_invariant (P := fun ms s => List.Forall₂ R s.1.methods (ms.map .declared)) ha
    (bare ▸ .nil) ?_
  intro _ m _ _ _ made hm
  obtain ⟨sig, hs, he⟩ := methods_addMethod hm
  rw [he, List.map_append]
  exact List.rel_append made (.cons (one hs) .nil)

theorem forall₂_addInitializer {void : ClassId} {o : Outline} (isStatic : Bool)
    (one : ∀ c, R (initializerMethod c void isStatic) (.initializer isStatic))
    (h : List.Forall₂ R o.cls.methods o.sources) :
    List.Forall₂ R (addInitializer void o isStatic).cls.methods
      (addInitializer void o isStatic).sources := by
  obtain same | ⟨new, added⟩ := addInitializer_cases void o isStatic
  · rwa [same]
  · rw [added, withInitializer, Class.methods_pushMethod]
    exact List.rel_append h (.cons (one _) .nil)

theorem forall₂_ofPlaced {void : ClassId} {w w' : Array Warning} {p : Placed} {o : Outline}
    (one : ∀ {c m sig}, signature r p.nspace c m = .ok sig →
      R { sig := sig, span := m.span } (.declared m))
    (initializer : ∀ c isStatic, R (initializerMethod c void isStatic) (.initializer isStatic))
    (shell : ∀ c, r.class? p.id = some c → c.methods = [])
    (h : ofPlaced r void w p = .ok (o, w')) : List.Forall₂ R o.cls.methods o.sources := by
  simp only [ofPlaced, bind_eq_ok, mapError_eq_ok, Prod.exists, Except.ok.injEq,
    Prod.mk.injEq] at h
  obtain ⟨c, hc, c', _, hm, rfl, -⟩ := h
  have start : c.methods = [] := by
    rw [methods_addFields hc]
    cases hr : r.class? p.id with
    | none => rfl
    | some c => exact shell c hr
  have members : List.Forall₂ R c'.methods (p.decl.methods.map .declared) :=
    forall₂_addMethods one start hm
  exact forall₂_addInitializer true (initializer · true)
    (forall₂_addInitializer (o := ⟨p.nspace, p.id, c', p.decl.methods.map .declared⟩) false
      (initializer · false) members)

end

theorem id_addInitializer {void : ClassId} {o : Outline} (isStatic : Bool) :
    (addInitializer void o isStatic).id = o.id := by
  obtain same | ⟨_, added⟩ := addInitializer_cases void o isStatic
  · rw [same]
  · rw [added, withInitializer]

theorem nspace_ofPlaced {void : ClassId} {p : Placed} {w w' : Array Warning} {o : Outline}
    (h : ofPlaced r void w p = .ok (o, w')) : o.nspace = p.nspace := by
  have kept (o : Outline) (isStatic : Bool) :
      (addInitializer void o isStatic).nspace = o.nspace := by
    obtain same | ⟨_, added⟩ := addInitializer_cases void o isStatic
    · rw [same]
    · rw [added, withInitializer]
  simp only [ofPlaced, bind_eq_ok, Prod.exists, Except.ok.injEq, Prod.mk.injEq] at h
  obtain ⟨c, -, c', _, -, rfl, -⟩ := h
  simp only [List.foldl_cons, List.foldl_nil, kept]

theorem ofPlaced_eq_ok {void : ClassId} {w w' : Array Warning} {p : Placed} {o : Outline}
    (shell : ∀ c, r.class? p.id = some c → c.methods = [])
    (h : ofPlaced r void w p = .ok (o, w')) : o.id = p.id ∧ Linked o := by
  refine ⟨?_, forall₂_ofPlaced ?_ (fun _ _ => ⟨rfl, nofun⟩) shell h⟩
  · simp only [ofPlaced, bind_eq_ok, mapError_eq_ok, Prod.exists, Except.ok.injEq,
      Prod.mk.injEq] at h
    obtain ⟨c, -, c', _, -, rfl, -⟩ := h
    simp only [List.foldl_cons, List.foldl_nil, id_addInitializer]
  · intro _ _ _ signed
    refine ⟨rfl, fun decl hd => ?_⟩
    cases hd
    exact names_signature signed

theorem sources_ofPlaced {void : ClassId} {w w' : Array Warning} {p : Placed} {o : Outline}
    (h : ofPlaced r void w p = .ok (o, w')) : ∃ kinds : List Bool,
    o.sources = p.decl.methods.map .declared ++ kinds.map .initializer := by
  have more {o : Outline} (isStatic : Bool) (kinds : List Bool)
      (h : o.sources = p.decl.methods.map .declared ++ kinds.map .initializer) :
      ∃ kinds : List Bool, (addInitializer void o isStatic).sources =
        p.decl.methods.map .declared ++ kinds.map .initializer := by
    obtain same | ⟨_, added⟩ := addInitializer_cases void o isStatic
    · exact ⟨kinds, by rw [same, h]⟩
    · exact ⟨kinds ++ [isStatic], by simp [added, withInitializer, h]⟩
  simp only [ofPlaced, bind_eq_ok, Prod.exists, Except.ok.injEq, Prod.mk.injEq] at h
  obtain ⟨c, -, c', _, -, rfl, -⟩ := h
  obtain ⟨kinds, first⟩ := more (o := ⟨p.nspace, p.id, c', p.decl.methods.map .declared⟩) false []
    (by simp)
  exact more true kinds first

theorem Linked.pending {o : Outline} (h : Linked o) {m : Method} (hm : m ∈ o.cls.methods) :
    m.body = .pending := by
  obtain ⟨i, hi, rfl⟩ := List.mem_iff_getElem.1 hm
  exact (h.get hi (h.length_eq ▸ hi)).1

end Outline

namespace Placement

theorem add_nspace_eq_ok {p p' : Placement} {name : String} {span : Span}
    (h : p.add (.nspace name span) = .ok p') :
    p' = { p with
      registry := (p.registry.openNamespace name).1
      nspace := (p.registry.openNamespace name).2 } :=
  (Except.ok.inj h).symm

theorem add_cls_eq_ok {p p' : Placement} {decl : ClassDecl} (h : p.add (.cls decl) = .ok p') :
    ∃ r id, p.registry.declareClass? p.nspace decl.name decl.isPublic = some (r, id) ∧
      p' = { p with registry := r, placed := ⟨decl, p.nspace, id⟩ :: p.placed } := by
  simp only [add] at h
  split at h
  · next r id hd => exact ⟨r, id, hd, (Except.ok.inj h).symm⟩
  · cases h

/-- The classes placed so far come after the built-in ones, in order and without methods. -/
structure Ordered (p : Placement) : Prop where
  ids : p.placed.reverse.map (·.id) = List.range' 6 p.placed.length
  classes : ∃ shells : List Class, p.registry.classes.toList = base.classes.toList ++ shells ∧
    shells.length = p.placed.length ∧ ∀ c ∈ shells, c.methods = []

theorem Ordered.start : Ordered { registry := base } := ⟨rfl, [], by simp, rfl, nofun⟩

theorem Ordered.add {p p' : Placement} (h : Ordered p) {item : Item} (ha : p.add item = .ok p') :
    Ordered p' := by
  obtain ⟨shells, hc, hl, hm⟩ := h.classes
  cases item with
  | nspace name span =>
    obtain rfl := add_nspace_eq_ok ha
    exact ⟨h.ids, shells, by rw [classes_openNamespace, hc], hl, hm⟩
  | cls decl =>
    obtain ⟨r, id, hd, rfl⟩ := add_cls_eq_ok ha
    obtain ⟨rfl, c, hr, hcm, -⟩ := declareClass?_eq_some hd
    have size : p.registry.classes.size = 6 + p.placed.length := by
      rw [← Array.length_toList, hc, List.length_append, hl, Array.length_toList, size_base]
    refine ⟨by simp [h.ids, size, List.range'_concat], shells ++ [c], ?_, by simp [hl], ?_⟩
    · rw [hr, Array.toList_push, hc, List.append_assoc]
    · simpa [or_imp, forall_and, hcm] using hm

theorem Ordered.addAll {items : List Item} {p p' : Placement} (h : Ordered p)
    (ha : items.foldlM Placement.add p = .ok p') : Ordered p' :=
  foldlM_invariant (P := fun _ p => Ordered p) ha h fun _ _ _ _ _ h ha => h.add ha

theorem Ordered.late {p : Placement} (h : Ordered p) {q : Placed} (hq : q ∈ p.placed) :
    6 ≤ (q.id : Nat) := by
  have number : q.id ∈ List.range' 6 p.placed.length := by
    rw [← h.ids]
    exact List.mem_map_of_mem (List.mem_reverse.2 hq)
  exact (List.mem_range'_1.1 number).1

theorem Ordered.shell {p : Placement} (h : Ordered p) : ∀ q ∈ p.placed.reverse, ∀ c,
    p.registry.class? q.id = some c → c.methods = [] := by
  intro q hq c hc
  obtain ⟨shells, classes, -, bare⟩ := h.classes
  have late : base.classes.toList.length ≤ q.id := h.late (List.mem_reverse.1 hq)
  rw [class?, ← Array.getElem?_toList, classes, List.getElem?_append_right late] at hc
  exact bare c (List.mem_of_getElem? hc)

end Placement

namespace Program

/-- What is declared before any body is compiled. -/
structure Declared where
  registry : Registry
  builtins : Builtins
  outlines : List Outline
  warnings : Array Warning

def declare (items : List Item) : Except Stop Declared := do
  let (r, builtins) := Builtins.install Registry.empty
  let placement ← (items.foldlM Placement.add { registry := r }).mapError (Stop.mk · #[])
  let (os, warnings) ← outlines placement.registry builtins.void placement.placed.reverse
  .ok ⟨os.foldl (fun r o => r.updateClass o.id fun _ => o.cls) placement.registry, builtins, os,
    warnings⟩

theorem declare_eq (items : List Item) :
    declare items = (do
      let placement ← (items.foldlM Placement.add { registry := base }).mapError (Stop.mk · #[])
      let s ← outlines placement.registry 5 placement.placed.reverse
      .ok ⟨s.1.foldl (fun r o => r.updateClass o.id fun _ => o.cls) placement.registry,
        ⟨0, 1, 2, 3, 4, 5⟩, s.1, s.2⟩) := rfl

/-- The outline is made of the placed class, whatever warnings there were before. -/
def Outlined (r : Registry) (void : ClassId) (p : Placed) (o : Outline) : Prop :=
  ∃ w w', Outline.ofPlaced r void w p = .ok (o, w')

def outlinesStep (r : Registry) (void : ClassId) (s : List Outline × Array Warning) (p : Placed) :
    Except Stop (List Outline × Array Warning) := do
  let (o, warnings) ← Outline.ofPlaced r void s.2 p
  pure (o :: s.1, warnings)

theorem outlines_eq (r : Registry) (void : ClassId) (placed : List Placed) :
    outlines r void placed = (do
      let s ← placed.foldlM (outlinesStep r void) ([], #[])
      .ok (s.1.reverse, s.2)) := rfl

theorem outlines_go {r : Registry} {void : ClassId} {placed : List Placed}
    {s s' : List Outline × Array Warning}
    (h : placed.foldlM (outlinesStep r void) s = .ok s') :
    ∃ os : List Outline, s'.1 = os.reverse ++ s.1 ∧ List.Forall₂ (Outlined r void) placed os := by
  induction placed generalizing s with
  | nil => exact ⟨[], by simp [foldlM_nil_eq_ok.1 h], .nil⟩
  | cons p placed ih =>
    obtain ⟨_, hp, h⟩ := foldlM_cons_eq_ok.1 h
    obtain ⟨⟨o, w⟩, ho, hp⟩ := bind_eq_ok.1 hp
    cases hp
    obtain ⟨os, hs, made⟩ := ih h
    exact ⟨o :: os, by simp [hs], .cons ⟨_, _, ho⟩ made⟩

theorem outlines_eq_ok {r : Registry} {void : ClassId} {placed : List Placed} {os : List Outline}
    {w : Array Warning} (h : outlines r void placed = .ok (os, w)) :
    List.Forall₂ (Outlined r void) placed os := by
  simp only [outlines_eq, bind_eq_ok, Except.ok.injEq, Prod.mk.injEq] at h
  obtain ⟨s, hs, rfl, -⟩ := h
  obtain ⟨os, he, made⟩ := outlines_go hs
  rw [he, List.append_nil, List.reverse_reverse]
  exact made

theorem toList_members {os : List Outline} {r : Registry} {pre shells : List Class}
    (hr : r.classes.toList = pre ++ shells) (hl : shells.length = os.length)
    (hi : os.map (·.id) = List.range' pre.length os.length) :
    (os.foldl (fun r o => r.updateClass o.id fun _ => o.cls) r).classes.toList =
      pre ++ os.map (·.cls) := by
  induction os generalizing r pre shells with
  | nil => simpa [List.length_eq_zero_iff.1 hl] using hr
  | cons o os ih =>
    obtain _ | ⟨c, shells⟩ := shells
    · simp at hl
    simp only [List.map_cons, List.length_cons, List.range'_succ, List.cons.injEq] at hi
    have hu := toList_updateClass hr fun _ => o.cls
    rw [List.append_cons] at hu
    have := ih hu (by simpa using hl) (by simpa using hi.2)
    simpa [hi.1] using this

theorem namespaces_members (os : List Outline) (r : Registry) :
    (os.foldl (fun r o => r.updateClass o.id fun _ => o.cls) r).namespaces = r.namespaces := by
  induction os generalizing r with
  | nil => rfl
  | cons o os ih => exact ih _

theorem builtins_members (os : List Outline) (r : Registry) :
    (os.foldl (fun r o => r.updateClass o.id fun _ => o.cls) r).builtins = r.builtins := by
  induction os generalizing r with
  | nil => rfl
  | cons o os ih => exact ih _

/-- The classes of a program, each under its number. -/
structure Declared.Ordered (d : Declared) : Prop where
  builtins : d.builtins = ⟨0, 1, 2, 3, 4, 5⟩
  classes : d.registry.classes.toList = base.classes.toList ++ d.outlines.map (·.cls)
  ids : d.outlines.map (·.id) = List.range' 6 d.outlines.length
  linked : ∀ o ∈ d.outlines, Outline.Linked o

/-- The placement that declarations come from. -/
structure Declared.Arises (d : Declared) (items : List Item) (p : Placement) : Prop where
  placed : items.foldlM Placement.add { registry := base } = .ok p
  outlines : List.Forall₂ (Outlined p.registry d.builtins.void) p.placed.reverse d.outlines
  builtins : d.builtins = ⟨0, 1, 2, 3, 4, 5⟩
  registry : d.registry =
    d.outlines.foldl (fun r o => r.updateClass o.id fun _ => o.cls) p.registry

theorem declare_arises {items : List Item} {d : Declared} (h : declare items = .ok d) :
    ∃ p, d.Arises items p := by
  simp only [declare_eq, bind_eq_ok, mapError_eq_ok, Prod.exists, Except.ok.injEq] at h
  obtain ⟨p, hp, os, w, ho, rfl⟩ := h
  exact ⟨p, hp, outlines_eq_ok ho, rfl, rfl⟩

theorem Declared.Arises.linked {d : Declared} {items : List Item} {p : Placement}
    (h : d.Arises items p) :
    List.Forall₂ (fun q o => q.id = o.id ∧ Outline.Linked o) p.placed.reverse d.outlines := by
  have shells := (Placement.Ordered.start.addAll h.placed).shell
  refine ((List.forall₂_and_left _ _).2 ⟨shells, h.outlines⟩).imp fun q o ⟨shell, _, _, made⟩ => ?_
  obtain ⟨hid, linked⟩ := Outline.ofPlaced_eq_ok shell made
  exact ⟨hid.symm, linked⟩

theorem declare_ordered {items : List Item} {d : Declared} (h : declare items = .ok d) :
    d.Ordered := by
  obtain ⟨p, arises⟩ := declare_arises h
  have placed := Placement.Ordered.start.addAll arises.placed
  obtain ⟨shells, hc, hl, -⟩ := placed.classes
  have ids : p.placed.reverse.map (·.id) = d.outlines.map (·.id) :=
    map_eq_of_forall₂ (arises.linked.imp fun _ _ h => h.1)
  have length : d.outlines.length = p.placed.length := by
    simpa using (congrArg List.length ids).symm
  have number : d.outlines.map (·.id) = List.range' 6 d.outlines.length := by
    rw [← ids, placed.ids, length]
  refine ⟨arises.builtins, ?_, number, fun o ho => ?_⟩
  · rw [arises.registry]
    exact toList_members hc (hl.trans length.symm) number
  · obtain ⟨_, -, -, linked⟩ := exists_of_mem_forall₂ arises.linked ho
    exact linked

theorem Declared.Ordered.declares {d : Declared} (h : d.Ordered) : Declares d.registry where
  base i hi := by
    rw [class?, class?, ← Array.getElem?_toList, ← Array.getElem?_toList, h.classes,
      List.getElem?_append_left (by simpa [size_base] using hi)]
  pending {i c} hi hc := by
    rw [class?, ← Array.getElem?_toList, h.classes,
      List.getElem?_append_right (by simpa [size_base] using hi)] at hc
    obtain ⟨o, ho, rfl⟩ := List.mem_map.1 (List.mem_of_getElem? hc)
    exact fun m hm => (h.linked o ho).pending hm

theorem Declared.Ordered.installed {d : Declared} (h : d.Ordered) :
    Installed d.registry d.builtins := by
  rw [h.builtins]
  exact h.declares.installed

theorem Declared.Ordered.class?_id {d : Declared} (h : d.Ordered) {o : Outline}
    (ho : o ∈ d.outlines) : 6 ≤ o.id ∧ d.registry.class? o.id = some o.cls := by
  obtain ⟨i, hi, rfl⟩ := List.mem_iff_getElem.1 ho
  have number : (d.outlines.map (·.id))[i]? = some (6 + i) := by
    rw [h.ids, List.getElem?_range' hi, one_mul]
  rw [List.getElem?_map, List.getElem?_eq_getElem hi] at number
  have hid : d.outlines[i].id = 6 + i := Option.some.inj number
  refine ⟨hid ▸ Nat.le_add_right 6 i, ?_⟩
  rw [hid, class?, ← Array.getElem?_toList, h.classes,
    List.getElem?_append_right (by simp [size_base]), Array.length_toList, size_base,
    Nat.add_sub_cancel_left, List.getElem?_map, List.getElem?_eq_getElem hi]
  rfl

/-! Compiling against what is declared. A program is compiled against the registry that is filled
meanwhile. That declares the same all along, so a method compiles as it would before all others. -/

/-- One more method of a class; they are collected in reverse. -/
def methodStep (site : Method → Site) (s : List Method × Nat × Array Warning)
    (m : Method × MethodSource) : Except Stop (List Method × Nat × Array Warning) := do
  let (c, labels, warnings) ← m.1.compile (site m.1) m.2 s.2.1 s.2.2
  pure (c :: s.1, labels, warnings)

/-- What is reached when the collected methods are entered in their class. -/
def Progress.enter (p : Progress) (o : Outline) (s : List Method × Nat × Array Warning)
    (hasMain : Bool) : Progress :=
  ⟨⟨p.program.registry.updateClass o.id (·.complete s.1.reverse), p.program.hasMain || hasMain⟩,
    s.2.1, s.2.2⟩

/-- Where a method stands before any method is compiled. -/
def Declared.site (d : Declared) (options : Options) (ns : Nat) (id : ClassId) (sig : Signature) :
    Site := ⟨d.registry, d.builtins, id, ns, sig, options⟩

def Declared.siteIn (d : Declared) (options : Options) (o : Outline) (m : Method) : Site :=
  d.site options o.nspace o.id m.sig

/-- Compiles the methods of a class against the declarations, and enters them together. -/
def Declared.compileClass (d : Declared) (options : Options) (p : Progress) (o : Outline) :
    Except Stop Progress := do
  let s ← (o.cls.methods.zip o.sources).foldlM (methodStep (d.siteIn options o))
    ([], p.labels, p.warnings)
  .ok (p.enter o s (o.sources.any MethodSource.isEntryPoint))

variable {d : Declared} {options : Options} {o : Outline}

theorem Declared.Ordered.declaration_eq (h : d.Ordered) (ho : o ∈ d.outlines) {r : Registry}
    (same : r.declarations = d.registry.declarations) {c : Class}
    (found : r.class? o.id = some c) : c.declaration = o.cls.declaration := by
  have read := r.class?_declarations o.id
  rw [same, class?_declarations, found, (h.class?_id ho).2] at read
  exact (Option.some.inj read).symm

theorem Declared.Ordered.sigs_eq (h : d.Ordered) (ho : o ∈ d.outlines) {r : Registry}
    (same : r.declarations = d.registry.declarations) {c : Class}
    (found : r.class? o.id = some c) : c.methods.map (·.sig) = o.cls.methods.map (·.sig) := by
  have methods := congrArg (fun c : Class => c.methods.map (·.sig)) (h.declaration_eq ho same found)
  simp only [Class.methods_declaration, List.map_map] at methods
  exact methods

theorem Declared.Ordered.declarations_entered (h : d.Ordered) (ho : o ∈ d.outlines) {r : Registry}
    (same : r.declarations = d.registry.declarations) {m c : Method} (hm : m ∈ o.cls.methods)
    (declared : c.declaration = m.declaration) :
    (r.updateClass o.id (·.updateMethod c.sig.name fun _ => c)).declarations =
      d.registry.declarations := by
  rw [declarations_updateClass, same]
  intro c₀ found
  refine Class.declaration_updateMethod ?_
  rw [h.declaration_eq ho same found, Class.methods_declaration, declared]
  exact List.mem_map_of_mem hm

theorem Progress.enter_cons (p : Progress) (o : Outline) (c : Method) (cs : List Method)
    (labels : Nat) (warnings : Array Warning) (hasMain hasMain' : Bool) :
    p.enter o (c :: cs, labels, warnings) (hasMain || hasMain') =
      ⟨⟨(p.enter o (cs, labels, warnings) hasMain).program.registry.updateClass o.id
          (·.updateMethod c.sig.name fun _ => c),
        (p.enter o (cs, labels, warnings) hasMain).program.hasMain || hasMain'⟩,
        labels, warnings⟩ := by
  simp only [enter, List.reverse_cons, updateClass_updateClass, Class.complete, List.foldl_append,
    List.foldl_cons, List.foldl_nil, Bool.or_assoc]

theorem Declared.Ordered.compileMethods_eq (h : d.Ordered) (ho : o ∈ d.outlines) {p : Progress}
    {ms : List (Method × MethodSource)} (listed : ∀ m ∈ ms, m.1 ∈ o.cls.methods)
    {s : List Method × Nat × Array Warning} {hasMain : Bool}
    (same : (p.enter o s hasMain).program.registry.declarations = d.registry.declarations) :
    ms.foldlM (compileMethod d.builtins options o) (p.enter o s hasMain) =
      (ms.foldlM (methodStep (d.siteIn options o)) s).map fun s' =>
        p.enter o s' (hasMain || ms.any (·.2.isEntryPoint)) := by
  induction ms generalizing s hasMain with
  | nil =>
    rw [List.any_nil, Bool.or_false]
    rfl
  | cons m ms ih =>
    obtain ⟨m, source⟩ := m
    obtain ⟨here, rest⟩ := List.forall_mem_cons.1 listed
    have pending := (h.linked o ho).pending here
    have alike : m.compile { d.siteIn options o m with registry := _ } source _ _ = _ :=
      m.compile_of_declarations h.installed same source s.2.1 s.2.2
    have step : compileMethod d.builtins options o (p.enter o s hasMain) (m, source) =
        (methodStep (d.siteIn options o) s (m, source)).map fun s' =>
          p.enter o s' (hasMain || source.isEntryPoint) := by
      refine (congrArg (· >>= _) alike).trans ?_
      rw [methodStep, bind_map]
      refine congrArg _ (funext fun r => ?_)
      exact congrArg Except.ok (p.enter_cons o r.1 s.1 r.2.1 r.2.2 hasMain source.isEntryPoint).symm
    rw [List.foldlM_cons, List.foldlM_cons, step]
    cases compiled : methodStep (d.siteIn options o) s (m, source) with
    | error stop => rfl
    | ok s' =>
      obtain ⟨r, hr, made⟩ := bind_eq_ok.1 compiled
      cases made
      refine (ih rest ?_).trans ?_
      · rw [p.enter_cons]
        exact h.declarations_entered ho same here (Method.declaration_compile pending hr)
      · rw [List.any_cons, Bool.or_assoc]
        rfl

/-- The methods of a class are compiled as if none were compiled yet. -/
theorem Declared.Ordered.compileClass_eq (h : d.Ordered) (ho : o ∈ d.outlines) {p : Progress}
    (same : p.program.registry.declarations = d.registry.declarations) :
    Program.compileClass d.builtins options p o = d.compileClass options p o := by
  have start : p.enter o ([], p.labels, p.warnings) false = p := by
    rw [Progress.enter, Bool.or_false]
    exact congrArg (Progress.mk ⟨·, _⟩ _ _) (updateClass_self _ _)
  have sources : (o.cls.methods.zip o.sources).any (·.2.isEntryPoint) =
      o.sources.any MethodSource.isEntryPoint := by
    rw [← List.map_snd_zip (h.linked o ho).length_eq.ge, List.any_map,
      List.map_snd_zip (h.linked o ho).length_eq.ge]
    rfl
  have listed : ∀ m ∈ o.cls.methods.zip o.sources, m.1 ∈ o.cls.methods := fun _ hm =>
    (List.of_mem_zip hm).1
  have run := @compileMethods_eq d options o h ho p _ listed ([], p.labels, p.warnings) false
    (start.symm ▸ same)
  rw [start, Bool.false_or, sources] at run
  refine run.trans ?_
  rw [Declared.compileClass]
  cases (o.cls.methods.zip o.sources).foldlM (methodStep (d.siteIn options o))
    ([], p.labels, p.warnings) <;> rfl

theorem Declared.Ordered.declarations_compileClass (h : d.Ordered) (ho : o ∈ d.outlines)
    {p p' : Progress} (same : p.program.registry.declarations = d.registry.declarations)
    (compiled : Program.compileClass d.builtins options p o = .ok p') :
    p'.program.registry.declarations = d.registry.declarations := by
  refine foldlM_invariant (P := fun _ p => p.program.registry.declarations = d.registry.declarations)
    compiled same fun _ m hm p p' same compiled => ?_
  obtain ⟨r, hr, made⟩ := bind_eq_ok.1 compiled
  cases made
  have here := (List.of_mem_zip hm).1
  exact h.declarations_entered ho same here
    (Method.declaration_compile ((h.linked o ho).pending here) hr)

theorem Declared.Ordered.compileClasses_eq (h : d.Ordered) {os : List Outline}
    (listed : ∀ o ∈ os, o ∈ d.outlines) {p : Progress}
    (same : p.program.registry.declarations = d.registry.declarations) :
    os.foldlM (Program.compileClass d.builtins options) p =
      os.foldlM (d.compileClass options) p := by
  induction os generalizing p with
  | nil => rfl
  | cons o os ih =>
    obtain ⟨here, rest⟩ := List.forall_mem_cons.1 listed
    rw [List.foldlM_cons, List.foldlM_cons, ← h.compileClass_eq here same]
    cases compiled : Program.compileClass d.builtins options p o with
    | error stop => rfl
    | ok p' => exact ih rest (h.declarations_compileClass here same compiled)

/-- A program is declared first, and then compiled. -/
theorem build_eq_declare (options : Options) (items : List Item) :
    build options items = (do
      let d ← declare items
      let p ← d.outlines.foldlM (Program.compileClass d.builtins options)
        ⟨⟨d.registry, false⟩, 0, d.warnings⟩
      .ok (p.program, p.warnings ++ mainWarning options p.program.hasMain)) := by
  simp only [build, declare, bind_assoc]
  rfl

/-- The bodies of a program may as well be compiled against its declarations. -/
theorem build_eq (options : Options) (items : List Item) :
    build options items = (do
      let d ← declare items
      let p ← d.outlines.foldlM (d.compileClass options) ⟨⟨d.registry, false⟩, 0, d.warnings⟩
      .ok (p.program, p.warnings ++ mainWarning options p.program.hasMain)) := by
  rw [build_eq_declare]
  cases declared : declare items with
  | error stop => rfl
  | ok d =>
    rw [ok_bind, ok_bind, (declare_ordered declared).compileClasses_eq (fun _ => id) rfl]

end Program
end ClassAsm
