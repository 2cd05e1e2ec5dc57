import ClassAsm.Compilation
import ClassAsm.Proofs.Program.ClassNames
import ClassAsm.Proofs.Registry.Changes

/-! Types as messages show them. The text of a type is the name of its class with one mark: of an
output it is not shown whether it is passed by reference too. Apart from that the text of a type
that a name means somewhere means the same type there, also if the name was the other name of a
built-in class. So two types are shown alike exactly if they differ in nothing or in this only. -/

namespace ClassAsm

namespace TypeName

def text (n : TypeName) : String :=
  if n.out then "_" ++ n.base else if n.byRef then n.base ++ "_" else n.base

def Bare (name : String) : Prop :=
  name.toList.head? ≠ some '_' ∧ name.toList.getLast? ≠ some '_'

instance (name : String) : Decidable (Bare name) := inferInstanceAs (Decidable (_ ∧ _))

theorem unmark_cons {cs : List Char} (h : cs ≠ []) : unmark ('_' :: cs) = (cs, true) := by
  obtain ⟨c, cs, rfl⟩ := List.exists_cons_of_ne_nil h
  rfl

theorem unmark_of_head {cs : List Char} (h : cs.head? ≠ some '_') : unmark cs = (cs, false) := by
  have unmarked : (unmark cs).2 = false := by
    rw [← Bool.not_eq_true, unmark_snd]
    exact fun marked => h marked.2
  exact Prod.ext (unmark_fst unmarked) unmarked

theorem unmark_fst_ne_nil {cs : List Char} (h : cs ≠ []) : (unmark cs).1 ≠ [] := by
  fun_cases unmark cs with
  | case1 => simp
  | case2 => exact h

theorem base_ne_empty {text : String} (h : (parse text).byRef = true ∨ (parse text).out = true) :
    (parse text).base ≠ "" := by
  have chars : text.toList.reverse ≠ [] := by
    intro none
    obtain rfl : text = "" := by simpa using none
    exact absurd h (by decide)
  have rest := unmark_fst_ne_nil (List.reverse_ne_nil_iff.2 (unmark_fst_ne_nil chars))
  rw [parse_eq]
  intro empty
  exact rest (String.ofList_inj.1 empty)

theorem parse_text {n : TypeName} (bare : Bare n.base)
    (inside : n.byRef = true ∨ n.out = true → n.base ≠ "") :
    parse n.text = { n with byRef := n.byRef && !n.out } := by
  obtain ⟨base, byRef, out⟩ := n
  obtain ⟨first, last⟩ := bare
  dsimp only at first last inside
  have chars (marked : byRef = true ∨ out = true) : base.toList ≠ [] := by
    simpa using inside marked
  have first' : base.toList.reverse.reverse.head? ≠ some '_' := by rwa [List.reverse_reverse]
  have last' : base.toList.reverse.head? ≠ some '_' := by rwa [List.head?_reverse]
  cases out with
  | true =>
    have behind : ('_' :: base.toList).reverse.head? ≠ some '_' := by
      rw [List.reverse_cons, List.head?_append_of_ne_nil _ (by simpa using chars (.inr rfl))]
      exact last'
    have shown : (TypeName.mk base byRef true).text.toList = '_' :: base.toList := by simp [text]
    rw [parse_eq, shown, unmark_of_head behind, List.reverse_reverse,
      unmark_cons (chars (.inr rfl))]
    simp
  | false =>
    cases byRef with
    | true =>
      have shown : (TypeName.mk base true false).text.toList.reverse =
          '_' :: base.toList.reverse := by simp [text]
      rw [parse_eq, shown, unmark_cons (by simpa using chars (.inl rfl)), unmark_of_head first']
      simp
    | false =>
      have shown : (TypeName.mk base false false).text = base := rfl
      rw [parse_eq, shown, unmark_of_head last', unmark_of_head first']
      simp

end TypeName

def TypeRef.shown (t : TypeRef) : TypeRef := { t with byRef := t.byRef && !t.out }

theorem TypeRef.shown_eq_iff (t : TypeRef) : t.shown = t ↔ ¬ (t.byRef = true ∧ t.out = true) := by
  obtain ⟨cls, byRef, out⟩ := t
  cases byRef <;> cases out <;> simp [shown]

namespace Registry

variable {r : Registry} {ns : Nat} {t t' : TypeRef}

theorem className_base {name : String} {id : ClassId} (h : base.builtin? name = some id) :
    TypeName.Bare (base.className id) ∧ base.className id ≠ "" ∧
      base.builtin? (base.className id) = some id := by
  have all : ∀ q ∈ base.builtins, TypeName.Bare (base.className q.2) ∧ base.className q.2 ≠ "" ∧
      base.builtin? (base.className q.2) = some q.2 := by decide +kernel
  obtain ⟨before, after, listed, -⟩ := List.lookup_eq_some_iff.1 h
  exact all (name, id) (by simp [listed])

/-- The built-in classes are there and nothing else is built in. Every class that is declared has a
name with no underscore at an end, and none has the name of a built-in class. -/
structure Clear (r : Registry) : Prop where
  reaches : Reaches base r
  builtins : r.builtins = base.builtins
  bare : ∀ n ∈ r.namespaces, ∀ p ∈ n.classes, TypeName.Bare p.1
  free : ∀ n ∈ r.namespaces, ∀ p ∈ n.classes, p.1 ∉ Builtins.names

namespace Clear

theorem builtin?_eq (h : r.Clear) (name : String) : r.builtin? name = base.builtin? name := by
  rw [builtin?, h.builtins]
  rfl

theorem className_builtin (h : r.Clear) {name : String} {id : ClassId}
    (found : r.builtin? name = some id) :
    TypeName.Bare (r.className id) ∧ r.className id ≠ "" ∧
      r.builtin? (r.className id) = some id := by
  rw [h.builtin?_eq] at found
  obtain ⟨c, hc⟩ : ∃ c, base.class? id = some c :=
    ⟨_, Array.getElem?_eq_getElem (builtin?_base found)⟩
  obtain ⟨c', hc', same⟩ := h.reaches.class? hc
  have named : r.className id = base.className id := by
    rw [className, className, hc, hc']
    exact (congrArg Class.name same :)
  rw [named, h.builtin?_eq]
  exact className_base found

theorem className_meant (h : r.Clear) {name : String} {id : ClassId}
    (found : (r.builtin? name).or (r.namespaces[ns]?.bind (·.lookup name)) = some id) :
    TypeName.Bare (r.className id) ∧ (name ≠ "" → r.className id ≠ "") ∧
      (r.builtin? (r.className id)).or (r.namespaces[ns]?.bind (·.lookup (r.className id))) =
        some id := by
  cases builtin : r.builtin? name with
  | some id' =>
    obtain rfl : id' = id := by simpa [builtin] using found
    obtain ⟨bare, nonempty, meant⟩ := h.className_builtin builtin
    exact ⟨bare, fun _ => nonempty, by rw [meant]; rfl⟩
  | none =>
    rw [builtin, Option.none_or, Option.bind_eq_some_iff] at found
    obtain ⟨n, hn, listed⟩ := found
    have space : n ∈ r.namespaces := List.mem_of_getElem? hn
    have entry := (n.indexes name id).1 listed
    obtain ⟨c, hc, -, -, named⟩ := (h.reaches.orderly .base).classes n space _ entry
    obtain rfl : r.className id = name := by
      rw [className, show r.class? id = some c from hc]
      exact named
    refine ⟨h.bare n space (r.className id, id) entry, fun nonempty => nonempty, ?_⟩
    rw [builtin, Option.none_or, hn]
    exact listed

end Clear

/-- The text of a type that a name means in a namespace means there what is shown of the type. -/
theorem Clear.resolve?_showType (h : r.Clear) {text : String}
    (meant : r.resolve? (TypeName.parse text) ns = some t) :
    r.resolve? (TypeName.parse (r.showType t)) ns = some t.shown := by
  simp only [resolve?, Option.bind_eq_bind, Option.bind_eq_some_iff, Option.pure_def,
    Option.some.injEq] at meant
  obtain ⟨id, found, rfl⟩ := meant
  obtain ⟨bare, nonempty, again⟩ := h.className_meant found
  let shown : TypeName := ⟨r.className id, (TypeName.parse text).byRef, (TypeName.parse text).out⟩
  have readBack : TypeName.parse shown.text = { shown with byRef := shown.byRef && !shown.out } :=
    TypeName.parse_text bare fun marked => nonempty (TypeName.base_ne_empty marked)
  rw [show r.showType _ = shown.text from rfl, readBack]
  simp only [resolve?, Option.bind_eq_bind]
  rw [show shown.base = r.className id from rfl, again]
  rfl

/-- In a registry with clear names, the text that is shown of a type means the same type where the
type was named, exactly if the type is not an output that is passed by reference too; and two types
that are named in one place are shown alike exactly if they are the same but for this. -/
theorem types_are_shown_but_for_outputs (h : r.Clear) (ns : Nat) :
    (∀ text t, r.resolve? (TypeName.parse text) ns = some t →
      r.resolve? (TypeName.parse (r.showType t)) ns = some t.shown ∧
      (r.resolve? (TypeName.parse (r.showType t)) ns = some t ↔
        ¬ (t.byRef = true ∧ t.out = true))) ∧
    ∀ text text' t t', r.resolve? (TypeName.parse text) ns = some t →
      r.resolve? (TypeName.parse text') ns = some t' →
      (r.showType t = r.showType t' ↔ t.shown = t'.shown) := by
  refine ⟨fun text t meant => ?_, fun text text' t t' meant meant' => ?_⟩
  · have again := h.resolve?_showType meant
    refine ⟨again, ?_⟩
    rw [again, Option.some.injEq, t.shown_eq_iff]
  · constructor
    · intro alike
      have again := h.resolve?_showType meant
      rw [alike, h.resolve?_showType meant', Option.some.injEq] at again
      exact again.symm
    · intro same
      have text_shown (t : TypeRef) : r.showType t = r.showType t.shown := by
        obtain ⟨cls, byRef, out⟩ := t
        cases byRef <;> cases out <;> rfl
      rw [text_shown t, text_shown t', same]

/-- The built-in classes and one class of a program. -/
def drawing : Registry := ((Change.declareClass 0 "Pt" true).run base).1

/-- Among the names is the other name of a built-in class. -/
theorem types_are_shown_but_for_outputs_drawing :
    drawing.Clear ∧
    (∀ text ∈ ["i32", "_Pt", "Pt_", "none_"], ∃ t,
      drawing.resolve? (TypeName.parse text) 0 = some t ∧
      drawing.resolve? (TypeName.parse (drawing.showType t)) 0 = some t) ∧
    drawing.showType ⟨6, true, false⟩ ≠ drawing.showType ⟨6, false, true⟩ := by
  have clear : drawing.Clear := by
    refine ⟨.change .refl (by unfold Change.Fits; decide +kernel), by decide +kernel,
      by decide +kernel, by decide +kernel⟩
  obtain ⟨again, alike⟩ := types_are_shown_but_for_outputs clear 0
  refine ⟨clear, ?_, ?_⟩
  · have named : ∀ text ∈ ["i32", "_Pt", "Pt_", "none_"], ∃ t,
        drawing.resolve? (TypeName.parse text) 0 = some t ∧ ¬ (t.byRef = true ∧ t.out = true) := by
      have checked : ∀ text ∈ ["i32", "_Pt", "Pt_", "none_"],
          (drawing.resolve? (TypeName.parse text) 0).any (fun t => !(t.byRef && t.out)) = true := by
        decide +kernel
      intro text listed
      obtain ⟨t, meant, single⟩ := (Option.any_eq_true _ _).1 (checked text listed)
      exact ⟨t, meant, fun both => by simp [both.1, both.2] at single⟩
    intro text listed
    obtain ⟨t, meant, single⟩ := named text listed
    exact ⟨t, meant, (again text t meant).2.2 single⟩
  · have shown := alike "Pt_" "_Pt" ⟨6, true, false⟩ ⟨6, false, true⟩ (by decide +kernel)
      (by decide +kernel)
    rw [Ne, shown]
    decide

/-- A local that is an output passed by reference gets the value of one that is only an output. -/
def outputs : List Char :=
  "class A: field public static g _i32 def public static void f(): x: _i32_ = g return ; ;".toList

/-- A type is shown with the text of another one, and a message shows both alike. -/
theorem reference_is_not_shown_of_outputs :
    base.resolve? (TypeName.parse "_i32_") 0 = some ⟨0, true, true⟩ ∧
    base.showType ⟨0, true, true⟩ = "_i32" ∧
    (¬ ∀ text t, base.resolve? (TypeName.parse text) 0 = some t →
      base.resolve? (TypeName.parse (base.showType t)) 0 = some t) ∧
    (match (Compilation.ofSource outputs {}).2.result with
      | .ok _ => none
      | .error f => some f.fault) = some (.declarationMismatch "x" "_i32" "_i32") := by
  have meant : base.resolve? (TypeName.parse "_i32_") 0 = some ⟨0, true, true⟩ := by decide +kernel
  have shown : base.showType ⟨0, true, true⟩ = "_i32" := by decide +kernel
  refine ⟨meant, shown, fun faithful => ?_, by decide +kernel⟩
  have again := faithful _ _ meant
  rw [shown] at again
  exact absurd again (by decide +kernel)

end Registry
end ClassAsm
