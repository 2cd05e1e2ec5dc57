import ClassAsm.Proofs.Program.Declared

/-! Where the classes of a program are placed. A class is found under its namespace and its name, and
its number says which place it has among the declarations. Only a class declared twice is refused. -/

namespace ClassAsm

open Registry

/-- A class declaration and the name of the namespace that it stands in. -/
structure Declaration where
  nspace : String
  cls : ClassDecl

namespace Declaration

def key (d : Declaration) : String × String := (d.nspace, d.cls.name)

def shell (d : Declaration) : Class :=
  { nspace := d.nspace, name := d.cls.name, asmName := s!"class {d.nspace}.{d.cls.name}",
    isPublic := d.cls.isPublic, isBuiltin := false }

/-- The place among namespaces and declarations. -/
def placed (spaces : List String) (keys : List (String × String)) (d : Declaration) : Placed :=
  ⟨d.cls, spaces.idxOf d.nspace, 6 + keys.idxOf d.key⟩

/-- The number of the class that a namespace has under a name. -/
def number? (keys : List (String × String)) (ns name : String) : Option ClassId :=
  if (ns, name) ∈ keys then some (6 + keys.idxOf (ns, name)) else none

end Declaration

/-- The classes that items declare, in order, when the namespace is open. -/
def Item.declarations (ns : String) : List Item → List Declaration
  | [] => []
  | .nspace name _ :: rest => declarations name rest
  | .cls c :: rest => ⟨ns, c⟩ :: declarations ns rest

namespace Placement

open Declaration

/-- Placed are these declarations, and this namespace is open. -/
structure Holds (p : Placement) (ds : List Declaration) (ns : String) : Prop where
  builtins : p.registry.builtins = base.builtins
  nodup : p.registry.spaces.Nodup
  isOpen : ns ∈ p.registry.spaces ∧ p.nspace = p.registry.spaces.idxOf ns
  lookup : ∀ n ∈ p.registry.namespaces, ∀ name, n.lookup name = number? (ds.map key) n.name name
  classes : p.registry.classes.toList = base.classes.toList ++ ds.map shell
  placed : p.placed.reverse = ds.map (Declaration.placed p.registry.spaces (ds.map key))
  known : ∀ d ∈ ds, d.nspace ∈ p.registry.spaces

theorem Holds.start : Holds { registry := base } [] defaultNamespace where
  builtins := rfl
  nodup := List.nodup_singleton _
  isOpen := ⟨List.mem_singleton.2 rfl, rfl⟩
  lookup n hn name := by
    rw [namespaces_base, List.mem_singleton] at hn
    subst hn
    simp [Namespace.lookup, number?]
  classes := (List.append_nil _).symm
  placed := rfl
  known := nofun

variable {p : Placement} {ds : List Declaration} {ns : String}

theorem Holds.nspace (h : p.Holds ds ns) (name : String) (span : Span) :
    ∃ p', p.add (.nspace name span) = .ok p' ∧ p'.Holds ds name := by
  refine ⟨⟨(p.registry.openNamespace name).1, (p.registry.openNamespace name).2, p.placed⟩, rfl, ?_⟩
  rw [openNamespace_eq]
  split
  · next old => exact { h with isOpen := ⟨old, rfl⟩ }
  · next new =>
    have spaces : Registry.spaces { p.registry with
        namespaces := p.registry.namespaces ++ [{ name := name }] } = p.registry.spaces ++ [name] :=
      List.map_append
    refine
      { builtins := h.builtins, nodup := ?_, isOpen := ?_, lookup := ?_, classes := h.classes
        placed := ?_, known := ?_ }
    · rw [spaces]
      exact List.nodup_append_comm.1 (List.nodup_cons.2 ⟨new, h.nodup⟩)
    · rw [spaces, List.idxOf_append_of_notMem new, List.idxOf_cons_self]
      exact ⟨by simp, rfl⟩
    · intro n hn other
      rcases List.mem_append.1 hn with hn | hn
      · exact h.lookup n hn other
      · obtain rfl := List.mem_singleton.1 hn
        have absent : (name, other) ∉ ds.map key := by
          intro hm
          obtain ⟨d, hd, he⟩ := List.mem_map.1 hm
          have here : d.nspace = name := congrArg Prod.fst he
          exact new (here ▸ h.known d hd)
        simp [Namespace.lookup, number?, absent]
    · rw [spaces]
      refine h.placed.trans (List.map_congr_left fun d hd => ?_)
      rw [Declaration.placed, Declaration.placed, List.idxOf_append_of_mem (h.known d hd)]
    · intro d hd
      rw [spaces]
      exact List.mem_append_left _ (h.known d hd)

theorem number?_append {keys : List (String × String)} {new : String × String} (hn : new ∉ keys)
    (ns name : String) : number? (keys ++ [new]) ns name =
      (number? keys ns name).or (if new = (ns, name) then some (6 + keys.length) else none) := by
  unfold number?
  by_cases old : (ns, name) ∈ keys
  · rw [if_pos old, if_pos (List.mem_append_left _ old), List.idxOf_append_of_mem old]
    rfl
  · rw [if_neg old, Option.none_or]
    by_cases same : new = (ns, name)
    · subst same
      rw [if_pos rfl, if_pos (by simp), List.idxOf_append_of_notMem hn, List.idxOf_cons_self]
      rfl
    · rw [if_neg same, if_neg (by simpa [old] using Ne.symm same)]

theorem Holds.current (h : p.Holds ds ns) : ∃ n, p.registry.namespaces[p.nspace]? = some n ∧
    n ∈ p.registry.namespaces ∧ n.name = ns := by
  have found : p.registry.spaces[p.nspace]? = some ns := by
    rw [h.isOpen.2, List.getElem?_idxOf h.isOpen.1]
  rw [Registry.spaces, List.getElem?_map] at found
  obtain ⟨n, hn, name⟩ := Option.map_eq_some_iff.1 found
  exact ⟨n, hn, List.mem_of_getElem? hn, name⟩

theorem Holds.size (h : p.Holds ds ns) : p.registry.classes.size = 6 + ds.length := by
  rw [← Array.length_toList, h.classes, List.length_append, List.length_map, Array.length_toList,
    size_base]

/-- The registry with one more class in a namespace. -/
def enter (r : Registry) (k : Nat) (n : Namespace) (decl : ClassDecl)
    (new : n.lookup decl.name = none) : Registry :=
  { r with
    classes := r.classes.push (shell ⟨n.name, decl⟩)
    namespaces := r.namespaces.set k (n.push decl.name r.classes.size new) }

theorem Holds.mem_enter (h : p.Holds ds ns) {n n' : Namespace}
    (hn : p.registry.namespaces[p.nspace]? = some n) {decl : ClassDecl}
    (new : n.lookup decl.name = none)
    (hm : n' ∈ (enter p.registry p.nspace n decl new).namespaces) :
    n' = n.push decl.name p.registry.classes.size new ∨
      n' ∈ p.registry.namespaces ∧ n.name ≠ n'.name := by
  obtain ⟨i, hi⟩ := List.mem_iff_getElem?.1 hm
  obtain ⟨lt, -⟩ := List.getElem?_eq_some_iff.1 hn
  by_cases here : p.nspace = i
  · subst here
    rw [enter, List.getElem?_set_self lt] at hi
    exact .inl (Option.some.inj hi).symm
  · rw [enter, List.getElem?_set_ne here] at hi
    refine .inr ⟨List.mem_of_getElem? hi, fun same => here ?_⟩
    have spaces : p.registry.spaces[p.nspace]? = p.registry.spaces[i]? := by
      rw [Registry.spaces, List.getElem?_map, List.getElem?_map, hn, hi]
      exact congrArg some same
    exact (List.getElem?_inj (by rwa [Registry.spaces, List.length_map]) h.nodup).1 spaces

theorem add_cls {n : Namespace} (hn : p.registry.namespaces[p.nspace]? = some n)
    (decl : ClassDecl) : p.add (.cls decl) =
      if new : n.lookup decl.name = none then
        .ok { p with
          registry := enter p.registry p.nspace n decl new
          placed := ⟨decl, p.nspace, p.registry.classes.size⟩ :: p.placed }
      else .error ((Fault.classRedeclared decl.name (p.registry.namespaceName p.nspace)).at
        decl.nameSpan) := by
  obtain ⟨n', hn', new, made⟩ | ⟨taken, made⟩ | ⟨absent, -⟩ :=
    p.registry.declareClass_cases p.nspace decl.name decl.isPublic
  · obtain rfl := Option.some.inj (hn.symm.trans hn')
    rw [dif_pos new, add, declareClass?, made]
    rfl
  · rw [hn, Option.bind_some] at taken
    rw [dif_neg taken, add, declareClass?, made]
    rfl
  · cases hn.symm.trans absent

theorem Holds.cls (h : p.Holds ds ns) {decl : ClassDecl} (new : (ns, decl.name) ∉ ds.map key) :
    ∃ p', p.add (.cls decl) = .ok p' ∧ p'.Holds (ds ++ [⟨ns, decl⟩]) ns := by
  obtain ⟨n, hn, hm, rfl⟩ := h.current
  have free : n.lookup decl.name = none := by rw [h.lookup n hm, number?, if_neg new]
  have keys : List.map key (ds ++ [⟨n.name, decl⟩]) = ds.map key ++ [(n.name, decl.name)] :=
    List.map_append
  refine ⟨⟨enter p.registry p.nspace n decl free, p.nspace,
    ⟨decl, p.nspace, p.registry.classes.size⟩ :: p.placed⟩, by rw [add_cls hn, dif_pos free], ?_⟩
  have spaces : (enter p.registry p.nspace n decl free).spaces = p.registry.spaces := by
    obtain ⟨lt, rfl⟩ := List.getElem?_eq_some_iff.1 hn
    exact map_name_set lt (Namespace.name_push free)
  refine
    { builtins := h.builtins, nodup := ?_, isOpen := ?_, lookup := ?_, classes := ?_
      placed := ?_, known := ?_ }
  · rw [spaces]
    exact h.nodup
  · rw [spaces]
    exact h.isOpen
  · intro n' hn' name
    rw [keys, number?_append new, List.length_map]
    rcases h.mem_enter hn free hn' with rfl | ⟨hm', other⟩
    · have old := h.lookup n hm name
      rw [Namespace.lookup_eq] at old
      rw [Namespace.lookup_eq, Namespace.classes_push, List.lookup_append, old, h.size]
      by_cases same : decl.name = name
      · simp [same]
      · have other : (name == decl.name) = false := beq_eq_false_iff_ne.2 (Ne.symm same)
        simp [same, List.lookup_cons, other]
    · rw [h.lookup _ hm', if_neg (by simp [other]), Option.or_none]
  · rw [enter, Array.toList_push, h.classes, List.map_append, List.append_assoc]
    rfl
  · rw [keys, spaces, List.reverse_cons, h.placed, List.map_append]
    congr 1
    · refine List.map_congr_left fun d hd => ?_
      rw [Declaration.placed, Declaration.placed,
        List.idxOf_append_of_mem (List.mem_map_of_mem hd)]
    · have last : (ds.map key ++ [(n.name, decl.name)]).idxOf (n.name, decl.name) = ds.length := by
        rw [List.idxOf_append_of_notMem new, List.idxOf_cons_self, List.length_map, add_zero]
      simp only [List.map_singleton, Declaration.placed, Declaration.key, last, h.isOpen.2, h.size]
  · intro d hd
    rw [spaces]
    rcases List.mem_append.1 hd with hd | hd
    · exact h.known d hd
    · rw [List.mem_singleton.1 hd]
      exact h.isOpen.1

theorem Holds.cls_taken (h : p.Holds ds ns) {decl : ClassDecl}
    (old : (ns, decl.name) ∈ ds.map key) : ∃ f, p.add (.cls decl) = .error f := by
  obtain ⟨n, hn, hm, rfl⟩ := h.current
  have taken : n.lookup decl.name ≠ none := by simp [h.lookup n hm, number?, old]
  exact ⟨_, by rw [add_cls hn, dif_neg taken]⟩

theorem Holds.addAll (h : p.Holds ds ns) (items : List Item)
    (nodup : ((ds ++ Item.declarations ns items).map key).Nodup) :
    ∃ p' ns', items.foldlM add p = .ok p' ∧ p'.Holds (ds ++ Item.declarations ns items) ns' := by
  induction items generalizing p ds ns with
  | nil => exact ⟨p, ns, foldlM_nil_eq_ok.2 rfl, by rwa [Item.declarations, List.append_nil]⟩
  | cons item items ih =>
    cases item with
    | nspace name span =>
      obtain ⟨p₁, added, h₁⟩ := h.nspace name span
      obtain ⟨p', ns', all, h'⟩ := ih h₁ nodup
      exact ⟨p', ns', foldlM_cons_eq_ok.2 ⟨p₁, added, all⟩, h'⟩
    | cls decl =>
      rw [Item.declarations, List.append_cons] at nodup ⊢
      have new : (ns, decl.name) ∉ ds.map key := by
        rw [List.map_append, List.map_append] at nodup
        exact (List.nodup_cons.1 (List.nodup_append_comm.1 nodup.of_append_left)).1
      obtain ⟨p₁, added, h₁⟩ := h.cls new
      obtain ⟨p', ns', all, h'⟩ := ih h₁ nodup
      exact ⟨p', ns', foldlM_cons_eq_ok.2 ⟨p₁, added, all⟩, h'⟩

theorem Holds.nodup_of_addAll (h : p.Holds ds ns) (nodup : (ds.map key).Nodup)
    {items : List Item} {p' : Placement} (ha : items.foldlM add p = .ok p') :
    ((ds ++ Item.declarations ns items).map key).Nodup := by
  induction items generalizing p ds ns with
  | nil => rwa [Item.declarations, List.append_nil]
  | cons item items ih =>
    obtain ⟨p₁, added, rest⟩ := foldlM_cons_eq_ok.1 ha
    clear ha
    cases item with
    | nspace name span =>
      obtain ⟨_, added', h₁⟩ := h.nspace name span
      rw [added] at added'
      cases added'
      exact ih h₁ nodup rest
    | cls decl =>
      have new : (ns, decl.name) ∉ ds.map key := by
        intro old
        obtain ⟨f, failed⟩ := h.cls_taken old
        rw [added] at failed
        cases failed
      obtain ⟨_, added', h₁⟩ := h.cls new
      rw [added] at added'
      cases added'
      rw [Item.declarations, List.append_cons]
      refine ih h₁ ?_ rest
      rw [List.map_append]
      exact List.nodup_append_comm.1 (List.nodup_cons.2 ⟨new, nodup⟩)

theorem Holds.class? (h : p.Holds ds ns) {d : Declaration} (nodup : (ds.map key).Nodup)
    (hd : d ∈ ds) : p.registry.class? (6 + (ds.map key).idxOf d.key) = some d.shell := by
  obtain ⟨i, hi, rfl⟩ := List.mem_iff_getElem.1 hd
  have place : (ds.map key).idxOf ds[i].key = i := by
    have := nodup.idxOf_getElem i (by rwa [List.length_map])
    rwa [List.getElem_map] at this
  rw [place, Registry.class?, ← Array.getElem?_toList, h.classes,
    List.getElem?_append_right (by simp [size_base]), Array.length_toList, size_base,
    Nat.add_sub_cancel_left, List.getElem?_map, List.getElem?_eq_getElem hi]
  rfl

theorem holds_of_addAll {items : List Item} {p : Placement}
    (ha : items.foldlM add { registry := base } = .ok p) :
    ((Item.declarations defaultNamespace items).map key).Nodup ∧
      ∃ ns, p.Holds (Item.declarations defaultNamespace items) ns := by
  have nodup := Holds.start.nodup_of_addAll List.nodup_nil ha
  obtain ⟨p', ns, placed, holds⟩ := Holds.start.addAll items nodup
  rw [ha] at placed
  cases placed
  exact ⟨nodup, ns, holds⟩

end Placement
end ClassAsm
