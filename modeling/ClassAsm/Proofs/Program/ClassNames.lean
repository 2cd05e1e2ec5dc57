import ClassAsm.Proofs.Assembly.Declarations
import ClassAsm.Proofs.Order.Numbers

/-! Names of classes as names of types. A class is declared under any identifier, while the name of a
type has marks at its ends and means a built-in class if there is one. So a class is what its own name
means exactly if the name has no marks and no built-in class has it. -/

namespace ClassAsm

namespace TypeName

def Marked (text : String) : Prop :=
  2 ≤ text.toList.length ∧ (text.toList.head? = some '_' ∨ text.toList.getLast? = some '_')

instance (text : String) : Decidable (Marked text) :=
  inferInstanceAs (Decidable (_ ∧ _))

theorem unmark_snd (cs : List Char) :
    (unmark cs).2 = true ↔ 2 ≤ cs.length ∧ cs.head? = some '_' := by
  fun_cases unmark cs with
  | case1 c cs => simp
  | case2 cs other =>
    constructor
    · intro marked
      cases marked
    · rintro ⟨long, first⟩
      obtain _ | ⟨c, _ | ⟨c', cs⟩⟩ := cs
      · cases first
      · simp at long
      · obtain rfl := Option.some.inj first
        exact absurd rfl (other c' cs)

theorem unmark_fst {cs : List Char} (h : (unmark cs).2 = false) : (unmark cs).1 = cs := by
  fun_cases unmark cs with
  | case1 => simp [unmark] at h
  | case2 => rfl

theorem parse_eq (text : String) : parse text =
    ⟨.ofList (unmark (unmark text.toList.reverse).1.reverse).1, (unmark text.toList.reverse).2,
      (unmark (unmark text.toList.reverse).1.reverse).2⟩ := rfl

theorem parse_of_plain {text : String} (byRef : (parse text).byRef = false)
    (out : (parse text).out = false) : parse text = ⟨text, false, false⟩ ∧ ¬ Marked text := by
  rw [parse_eq] at byRef out
  dsimp only at byRef out
  rw [unmark_fst byRef, List.reverse_reverse] at out
  refine ⟨?_, ?_⟩
  · rw [parse_eq, unmark_fst byRef, List.reverse_reverse, unmark_fst out, byRef, out,
      String.ofList_toList]
  · rintro ⟨long, first | last⟩
    · rw [(unmark_snd _).2 ⟨long, first⟩] at out
      cases out
    · rw [(unmark_snd _).2 ⟨by rwa [List.length_reverse], by rwa [List.head?_reverse]⟩] at byRef
      cases byRef

theorem parse_eq_iff (text : String) : parse text = ⟨text, false, false⟩ ↔ ¬ Marked text := by
  constructor
  · intro plain
    exact (parse_of_plain (by rw [plain]) (by rw [plain])).2
  · intro unmarked
    have byRef : (unmark text.toList.reverse).2 = false := by
      rw [← Bool.not_eq_true, unmark_snd, List.length_reverse, List.head?_reverse]
      rintro ⟨long, last⟩
      exact unmarked ⟨long, .inr last⟩
    have out : (unmark text.toList).2 = false := by
      rw [← Bool.not_eq_true, unmark_snd]
      rintro ⟨long, first⟩
      exact unmarked ⟨long, .inl first⟩
    refine (parse_of_plain byRef ?_).1
    rwa [parse_eq, unmark_fst byRef, List.reverse_reverse]

end TypeName

/-! Names of built-in classes. -/

def Builtins.names : List String := ["none", "void", "string", "f64", "f32", "i64", "i32"]

namespace Registry

theorem builtin?_base_eq_none_iff {name : String} :
    base.builtin? name = none ↔ name ∉ Builtins.names := by
  have names : base.builtins.map Prod.fst = Builtins.names := rfl
  rw [builtin?, List.lookup_eq_none_iff, ← names, List.mem_map]
  constructor
  · rintro apart ⟨q, hq, rfl⟩
    simpa using apart q hq
  · intro absent q hq
    exact bne_iff_ne.2 fun same => absent ⟨q, hq, same.symm⟩

end Registry

namespace Program

variable {options : Options} {items : List Item} {p : Program} {warnings : Array Warning}

theorem builtins_build (h : build options items = .ok (p, warnings)) :
    p.registry.builtins = Registry.base.builtins := by
  simp only [build_eq, bind_eq_ok, Except.ok.injEq, Prod.mk.injEq] at h
  obtain ⟨d, declared, progress, compiled, rfl, -⟩ := h
  obtain ⟨place, arises⟩ := declare_arises declared
  obtain ⟨-, ns, holds⟩ := Placement.holds_of_addAll arises.placed
  have placed : d.registry.builtins = Registry.base.builtins := by
    rw [arises.registry, builtins_members]
    exact holds.builtins
  refine foldlM_invariant
    (P := fun _ q => q.program.registry.builtins = Registry.base.builtins) compiled placed ?_
  intro _ o _ q q' same ho
  obtain ⟨cs, -, registry⟩ := compileClass_eq_ok ho
  rw [registry]
  exact same

/-- The class is declared in the namespace, under its own name. -/
structure Declares (p : Program) (decl : Declaration) (ns : Nat) (id : ClassId) : Prop where
  listed : ∃ n, p.registry.namespaces[ns]? = some n ∧ n.name = decl.nspace ∧
    n.lookup decl.cls.name = some id
  named : ∃ c, p.registry.class? id = some c ∧ c.isBuiltin = false ∧ c.nspace = decl.nspace ∧
    c.name = decl.cls.name

theorem Declares.resolve?_iff {decl : Declaration} {ns : Nat} {id : ClassId}
    (h : p.Declares decl ns id) (late : 6 ≤ (id : Nat))
    (builtins : p.registry.builtins = Registry.base.builtins) :
    p.registry.resolve? (TypeName.parse decl.cls.name) ns = some { cls := id } ↔
      decl.cls.name ∉ Builtins.names ∧ ¬ TypeName.Marked decl.cls.name := by
  obtain ⟨n, hn, -, found⟩ := h.listed
  have known (name : String) : p.registry.builtin? name = Registry.base.builtin? name := by
    rw [Registry.builtin?, builtins]
    rfl
  rw [← Registry.builtin?_base_eq_none_iff]
  simp only [Registry.resolve?, known, hn, Option.bind_eq_bind, Option.bind_some,
    Option.bind_eq_some_iff, Option.pure_def, Option.some.injEq, TypeRef.mk.injEq]
  constructor
  · rintro ⟨id, meant, rfl, byRef, out⟩
    obtain ⟨plain, unmarked⟩ := TypeName.parse_of_plain byRef out
    rw [plain] at meant
    refine ⟨?_, unmarked⟩
    cases builtin : Registry.base.builtin? decl.cls.name with
    | none => rfl
    | some id' =>
      obtain rfl : id' = id := by simpa [builtin] using meant
      exact absurd (Registry.builtin?_base builtin) (not_lt.2 late)
  · rintro ⟨free, unmarked⟩
    rw [(TypeName.parse_eq_iff _).2 unmarked]
    exact ⟨id, by simp [free, found], rfl, rfl, rfl⟩

theorem Stages.declares {d : Declared} {place : Placement} (h : Stages options items d place p)
    {decl : Declaration} {q : Placed} {o : Outline} {c : Class}
    (comes : Comes options items d place p decl q o c) : p.Declares decl q.nspace q.id := by
  obtain ⟨same, there⟩ := comes.takes
  rw [← h.agrees.names, Registry.spaces, List.getElem?_map, ← h.namespaces_eq,
    Option.map_eq_some_iff] at there
  obtain ⟨n, hn, home⟩ := there
  have listed : q.id ∈ n.ids := by
    rw [h.agrees.ids q.nspace n (h.namespaces_eq ▸ hn)]
    exact List.mem_map_of_mem
      (List.mem_filter.2 ⟨List.mem_reverse.2 comes.placed, beq_self_eq_true _⟩)
  obtain ⟨⟨name, id⟩, he, rfl⟩ := List.mem_map.1 listed
  obtain ⟨c', hc', -, nspace, named⟩ := h.housed.classes n (List.mem_of_getElem? hn) _ he
  obtain rfl : c = c' := Option.some.inj (comes.found.symm.trans hc')
  have own := h.name_of_comes comes
  obtain rfl : name = decl.cls.name := named.symm.trans own
  refine ⟨⟨n, hn, home, ?_⟩, c, hc', (congrArg Class.isBuiltin (h.head_eq comes) :), nspace.trans home, own⟩
  exact (n.indexes _ _).2 he

/-- In a program that is accepted, every declared class is in its namespace under its name, and the
name means the class there, by value, exactly if it is no name of a built-in class and has no
underscore at an end, unless that is all of it. -/
theorem class_names_resolve {source : List Char} {tokens : List Token}
    (lexed : (Lexed.ofSource source).tokens = .ok tokens)
    (read : Item.ofTokens tokens = .ok items)
    (built : build options items = .ok (p, warnings)) :
    ∀ decl ∈ Item.declarations Registry.defaultNamespace items, ∃ ns id, p.Declares decl ns id ∧
      (p.registry.resolve? (TypeName.parse decl.cls.name) ns = some { cls := id } ↔
        decl.cls.name ∉ Builtins.names ∧ ¬ TypeName.Marked decl.cls.name) := by
  intro decl hd
  obtain ⟨d, place, stages⟩ := exists_stages lexed read built
  obtain ⟨cs, -, come⟩ := stages.exists_classes
  obtain ⟨c, -, q, o, comes⟩ := exists_of_mem_forall₂ come.flip hd
  have declares := stages.declares comes
  exact ⟨q.nspace, q.id, declares,
    declares.resolve?_iff (stages.le_of_comes comes) (builtins_build built)⟩

/-- Names with underscores inside or of nothing else, in two namespaces. -/
def underscored : List Char :=
  ("class _: ; class a_b: def public static void f(x: a_b, y: _, z: a_b_): ; ; namespace N " ++
    "class a_b: def public static void f(x: a_b): ; ;").toList

theorem class_names_resolve_underscored : ∃ tokens items p warnings,
    (Lexed.ofSource underscored).tokens = .ok tokens ∧ Item.ofTokens tokens = .ok items ∧
      build {} items = .ok (p, warnings) ∧
      (Item.declarations Registry.defaultNamespace items).map
        (fun decl => (decl.nspace, decl.cls.name)) =
          [("Program", "_"), ("Program", "a_b"), ("N", "a_b")] ∧
      ∀ decl ∈ Item.declarations Registry.defaultNamespace items, ∃ ns id, p.Declares decl ns id ∧
        p.registry.resolve? (TypeName.parse decl.cls.name) ns = some { cls := id } := by
  have checked : passes underscored (fun items _ =>
      (Item.declarations Registry.defaultNamespace items).map
        (fun decl => (decl.nspace, decl.cls.name)) =
          [("Program", "_"), ("Program", "a_b"), ("N", "a_b")]) = true := by
    unfold underscored
    simp only [String.toList_append]
    repeat rewrite [String.toList_ofList]
    decide +kernel
  obtain ⟨tokens, items, p, warnings, lexed, read, built, checked⟩ := exists_of_passes checked
  have names := of_decide_eq_true checked
  refine ⟨tokens, items, p, warnings, lexed, read, built, names, fun decl hd => ?_⟩
  obtain ⟨ns, id, declares, means⟩ := class_names_resolve lexed read built decl hd
  refine ⟨ns, id, declares, means.2 ?_⟩
  have plain : ∀ n ∈ [("Program", "_"), ("Program", "a_b"), ("N", "a_b")],
      n.2 ∉ Builtins.names ∧ ¬ TypeName.Marked n.2 := by decide +kernel
  exact plain _ (names ▸ List.mem_map_of_mem hd)

/-- A class with a built-in name, and two whose names differ in a mark. -/
def lookalikes : List Char := "class i32: ; class A: ; class A_: ;".toList

/-- Neither the first class nor the last is what its name means. -/
theorem class_names_lost_lookalikes : ∃ tokens items p warnings,
    (Lexed.ofSource lookalikes).tokens = .ok tokens ∧ Item.ofTokens tokens = .ok items ∧
      build {} items = .ok (p, warnings) ∧
      (p.registry.namespaces.map fun n => (n.name, n.classes)) =
        [("Program", [("i32", 6), ("A", 7), ("A_", 8)])] ∧
      p.registry.resolve? (TypeName.parse "i32") 0 = some { cls := 0 } ∧
      p.registry.resolve? (TypeName.parse "A_") 0 = some { cls := 7, byRef := true } := by
  have checked : passes lookalikes (fun _ p =>
      (p.registry.namespaces.map fun n => (n.name, n.classes)) =
        [("Program", [("i32", 6), ("A", 7), ("A_", 8)])] ∧
      p.registry.resolve? (TypeName.parse "i32") 0 = some { cls := 0 } ∧
      p.registry.resolve? (TypeName.parse "A_") 0 = some { cls := 7, byRef := true }) = true := by
    decide +kernel
  obtain ⟨tokens, items, p, warnings, lexed, read, built, checked⟩ := exists_of_passes checked
  exact ⟨tokens, items, p, warnings, lexed, read, built, of_decide_eq_true checked⟩

end Program
end ClassAsm
