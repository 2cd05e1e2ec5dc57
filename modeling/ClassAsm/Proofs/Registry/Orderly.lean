import ClassAsm.Proofs.Registry.Installed
import ClassAsm.Proofs.Registry.Targets

/-! Where declared classes live. Namespaces have different names, each lists its classes in the order
of their numbers, and every declared class stands in the namespace that it names itself. So a
namespace and a name stand for one class. In a program both are words. -/

namespace ClassAsm

namespace Registry

/-- Classes are where they say. -/
structure Orderly (r : Registry) : Prop where
  nspaces : r.spaces.Nodup
  ascending : ∀ n ∈ r.namespaces, n.ids.Pairwise (· < ·)
  classes : ∀ n ∈ r.namespaces, ∀ p ∈ n.classes, ∃ c, r.class? p.2 = some c ∧
    c.isBuiltin = false ∧ c.nspace = n.name ∧ c.name = p.1
  places : ∀ id c, r.class? id = some c → c.isBuiltin = false → ∃ n ∈ r.namespaces, id ∈ n.ids

variable {r r' : Registry} {id : ClassId} {ns : Nat} {name : String} {isPublic : Bool}

namespace Orderly

theorem empty : Registry.empty.Orderly where
  nspaces := by simp [Registry.empty, spaces]
  ascending := by simp [Registry.empty, Namespace.ids]
  classes := by simp [Registry.empty]
  places := nofun

/-- A namespace has a class once, so it has a name once. -/
theorem names (h : r.Orderly) {n : Namespace} (hn : n ∈ r.namespaces) :
    (n.classes.map Prod.fst).Nodup := by
  have ids : n.ids.Nodup := (h.ascending n hn).imp fun lt => lt.ne
  refine (List.Nodup.of_map Prod.snd ids).map_on ?_
  rintro ⟨name, i⟩ hp ⟨_, j⟩ hq rfl
  rw [← n.indexes] at hp hq
  exact Prod.ext rfl (Option.some.inj (hp.symm.trans hq))

theorem openNamespace (h : r.Orderly) (name : String) : (r.openNamespace name).1.Orderly := by
  obtain he | ⟨new, he⟩ := openNamespace_cases r name
  · rwa [he]
  rw [he]
  refine
    { nspaces := by
        rw [spaces, List.map_append]
        exact List.nodup_append_comm.1 (List.nodup_cons.2 ⟨new, h.nspaces⟩)
      ascending := forall_mem_concat h.ascending (by simp [Namespace.ids])
      classes := forall_mem_concat h.classes (by simp)
      places := fun id c hc declared => ?_ }
  obtain ⟨n, hn, hi⟩ := h.places id c hc declared
  exact ⟨n, List.mem_append_left _ hn, hi⟩

theorem addBuiltin (h : r.Orderly) (name asmName : String) :
    (r.addBuiltin name asmName).1.Orderly where
  nspaces := h.nspaces
  ascending := h.ascending
  classes n hn p hp := by
    obtain ⟨c, hc, same⟩ := h.classes n hn p hp
    exact ⟨c, class?_push_of_some hc, same⟩
  places id c hc declared := by
    rw [addBuiltin_eq, class?, class?_push] at hc
    split at hc
    · cases hc
      cases declared
    · exact h.places id c hc declared

theorem aliasBuiltin (h : r.Orderly) (name : String) (id : ClassId) :
    (r.aliasBuiltin name id).Orderly :=
  ⟨h.nspaces, h.ascending, h.classes, h.places⟩

/-- The new class is listed once, behind classes with smaller numbers. -/
theorem declareClass? (h : r.Orderly) (hd : r.declareClass? ns name isPublic = some (r', id)) :
    r'.Orderly := by
  obtain ⟨n, hn, new, rfl, rfl⟩ := declareClass?_iff.1 hd
  obtain ⟨lt, rfl⟩ := List.getElem?_eq_some_iff.1 hn
  have member : r.namespaces[ns] ∈ r.namespaces := List.getElem_mem lt
  have smaller : ∀ i ∈ r.namespaces[ns].ids, i < r.classes.size := by
    simp only [Namespace.ids, List.forall_mem_map]
    intro p hp
    obtain ⟨c, hc, -⟩ := h.classes _ member p hp
    exact lt_size_of_class? hc
  refine
    { nspaces := ?_, ascending := forall_mem_set h.ascending ?_
      classes := forall_mem_set ?_ ?_, places := ?_ }
  · show ((r.namespaces.set ns (r.namespaces[ns].push name r.classes.size new)).map (·.name)).Nodup
    rw [map_name_set lt (Namespace.name_push new)]
    exact h.nspaces
  · rw [Namespace.ids, Namespace.classes_push, List.map_append]
    refine List.pairwise_append.2 ⟨h.ascending _ member, by simp, fun i hi j hj => ?_⟩
    rw [List.map_singleton, List.mem_singleton] at hj
    exact hj ▸ smaller i hi
  · intro n hm p hp
    obtain ⟨c, hc, same⟩ := h.classes n hm p hp
    exact ⟨c, class?_push_of_some hc, same⟩
  · intro p hp
    rcases List.mem_append.1 hp with hp | hp
    · obtain ⟨c, hc, same⟩ := h.classes _ member p hp
      exact ⟨c, class?_push_of_some hc, same⟩
    · obtain rfl := List.mem_singleton.1 hp
      exact ⟨_, Array.getElem?_push_size, rfl, rfl, rfl⟩
  · intro id c hc declared
    rw [class?, class?_push] at hc
    split at hc
    · next he => exact ⟨_, List.mem_set lt _, by simp [Namespace.ids, he]⟩
    · refine exists_mem_set lt (h.places id c hc declared) fun hi => ?_
      rw [Namespace.ids, Namespace.classes_push, List.map_append]
      exact List.mem_append_left _ hi

theorem of_agrees (h : r.Orderly) (ha : Agrees r r') (hn : r'.namespaces = r.namespaces) :
    r'.Orderly := by
  refine
    { nspaces := by rw [spaces, hn]; exact h.nspaces
      ascending := by rw [hn]; exact h.ascending
      classes := ?_, places := ?_ }
  · intro n hm p hp
    obtain ⟨c₀, hc₀, declared, hns, hname⟩ := h.classes n (hn ▸ hm) p hp
    obtain ⟨c, hc, same⟩ := ha.class? hc₀
    exact ⟨c, hc, (congrArg Class.isBuiltin same).trans declared,
      (congrArg Class.nspace same).trans hns, (congrArg Class.name same).trans hname⟩
  · intro id c hc declared
    obtain ⟨c₀, hc₀, same⟩ := ha.symm.class? hc
    rw [hn]
    exact h.places id c₀ hc₀ ((congrArg Class.isBuiltin same).trans declared)

end Orderly

end Registry

theorem Numeric.head_cls (n : Numeric) (id : ClassId) :
    (n.cls id).head = Registry.builtinClass n.name n.asmName := by
  have kept (c : Class) (op : Operation) : (n.addOperator id c op).head = c.head := by
    unfold addOperator
    split <;> rfl
  have run (ops : List Operation) (c : Class) :
      (ops.foldl (n.addOperator id) c).head = c.head := by
    induction ops generalizing c with
    | nil => rfl
    | cons op ops ih => rw [List.foldl_cons, ih, kept]
  exact run _ _

namespace Registry

variable {r r' : Registry} {id : ClassId} {ns : Nat} {name : String} {isPublic : Bool}

theorem heads_base : base.classes.toList.map Class.head =
    [builtinClass "i32" "int32", builtinClass "i64" "int64", builtinClass "f32" "float32",
      builtinClass "f64" "float64", builtinClass "string" "string",
      builtinClass "void" "void"] := by
  simp only [classes_base, List.map_cons, List.map_nil, Numeric.head_cls]
  rfl

theorem asmNames_base : base.classes.toList.map Class.asmName =
    ["int32", "int64", "float32", "float64", "string", "void"] := by
  have names := congrArg (List.map Class.asmName) heads_base
  rwa [List.map_map] at names

theorem isBuiltin_base {c : Class} (hc : c ∈ base.classes.toList) : c.isBuiltin = true := by
  have all : ∀ d ∈ base.classes.toList.map Class.head, d.isBuiltin = true := by
    rw [heads_base]
    simp [builtinClass]
  exact all c.head (List.mem_map_of_mem hc)

theorem Orderly.base : base.Orderly where
  nspaces := by simp [spaces, namespaces_base]
  ascending := by simp [namespaces_base, Namespace.ids]
  classes := by simp [namespaces_base]
  places id c hc declared := by
    rw [isBuiltin_base (Array.mem_toList_iff.2 (Array.mem_of_getElem? hc))] at declared
    cases declared

/-- What is declared comes behind the built-in classes and is named by words. -/
structure Housed (r : Registry) : Prop extends Orderly r where
  size : 6 ≤ r.classes.size
  numbers : ∀ id c, r.class? id = some c → (6 ≤ id ↔ c.isBuiltin = false)
  words : ∀ n ∈ r.namespaces, IsWord n.name ∧ ∀ p ∈ n.classes, IsWord p.1
  writes : r.Writes

namespace Housed

theorem base : base.Housed where
  toOrderly := .base
  size := size_base.ge
  numbers id c hc := by
    rw [isBuiltin_base (Array.mem_toList_iff.2 (Array.mem_of_getElem? hc))]
    have lt := lt_size_of_class? hc
    rw [size_base] at lt
    simpa using lt
  words := by
    rw [namespaces_base]
    simp only [List.mem_singleton, forall_eq, List.not_mem_nil, false_imp_iff, implies_true,
      and_true]
    exact List.all_eq_true.1 (by decide)
  writes c hc := by
    refine .builtin ?_
    rw [← asmNames_base]
    exact List.mem_map_of_mem (f := (·.asmName)) (Array.mem_toList_iff.2 hc)

/-- A declared class is listed where it is declared. -/
theorem listed (h : r.Housed) {c : Class} (hi : 6 ≤ id) (hc : r.class? id = some c) :
    ∃ n ∈ r.namespaces, (c.name, id) ∈ n.classes ∧ n.name = c.nspace := by
  obtain ⟨n, hn, hm⟩ := h.places id c hc ((h.numbers id c hc).1 hi)
  obtain ⟨⟨name, _⟩, hp, rfl⟩ := List.mem_map.1 hm
  obtain ⟨c', hc', -, hns, hname⟩ := h.classes n hn _ hp
  obtain rfl := Option.some.inj (hc.symm.trans hc')
  obtain rfl : _ = name := hname
  exact ⟨n, hn, hp, hns.symm⟩

/-- A class that is declared is named by words. -/
theorem isWord (h : r.Housed) {c : Class} (hi : 6 ≤ id) (hc : r.class? id = some c) :
    IsWord c.nspace ∧ IsWord c.name := by
  obtain ⟨n, hn, hp, hns⟩ := h.listed hi hc
  exact ⟨hns ▸ (h.words n hn).1, (h.words n hn).2 _ hp⟩

theorem of_agrees (h : r.Housed) (ha : Agrees r r') (hn : r'.namespaces = r.namespaces) :
    r'.Housed where
  toOrderly := h.toOrderly.of_agrees ha hn
  size := by
    obtain ⟨_, hc, -⟩ := ha.class? (Array.getElem?_eq_getElem (Nat.lt_of_succ_le h.size))
    exact lt_size_of_class? hc
  numbers id c hc := by
    obtain ⟨c₀, hc₀, same⟩ := ha.symm.class? hc
    rw [h.numbers id c₀ hc₀]
    exact Eq.congr_left (congrArg Class.isBuiltin same :)
  words := by rw [hn]; exact h.words
  writes c hc := by
    obtain ⟨i, hi, rfl⟩ := Array.mem_iff_getElem.1 hc
    obtain ⟨c₀, hc₀, same⟩ := ha.symm.class? (Array.getElem?_eq_getElem hi)
    have name : c₀.head.asmName = r'.classes[i].head.asmName := congrArg Class.asmName same
    exact name ▸ h.writes c₀ (Array.mem_of_getElem? hc₀)

theorem openNamespace (h : r.Housed) (hw : IsWord name) : (r.openNamespace name).1.Housed := by
  have orderly := h.toOrderly.openNamespace name
  obtain he | ⟨-, he⟩ := openNamespace_cases r name
  · rwa [he]
  rw [he] at orderly ⊢
  exact ⟨orderly, h.size, h.numbers, forall_mem_concat h.words ⟨hw, by simp⟩, h.writes⟩

theorem declareClass? (h : r.Housed) (hw : IsWord name)
    (hd : r.declareClass? ns name isPublic = some (r', id)) : r'.Housed := by
  have orderly := h.toOrderly.declareClass? hd
  obtain ⟨n, hn, new, rfl, rfl⟩ := declareClass?_iff.1 hd
  obtain ⟨wordN, words⟩ := h.words n (List.mem_of_getElem? hn)
  refine ⟨orderly, ?_, fun id c hc => ?_, forall_mem_set h.words ⟨wordN, ?_⟩, fun c hc => ?_⟩
  · simpa using h.size.trans (Nat.le_succ _)
  · rw [class?, class?_push] at hc
    split at hc
    · next he =>
      cases hc
      simpa [he] using h.size
    · exact h.numbers id c hc
  · intro p hp
    rcases List.mem_append.1 hp with hp | hp
    · exact words p hp
    · exact List.mem_singleton.1 hp ▸ hw
  · rcases Array.mem_push.1 hc with hc | rfl
    · exact h.writes c hc
    · exact .declared wordN hw

end Housed

end Registry
end ClassAsm
