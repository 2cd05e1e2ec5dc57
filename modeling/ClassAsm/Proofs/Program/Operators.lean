import ClassAsm.Proofs.Code.Operators
import ClassAsm.Proofs.Program.Values

/-! The operators in whole programs. Wherever an operator is used, also inside of a default that stands
for a field, a method of the class of its first operand is applied, and it gets the number of values
that it is declared with. All of them have the declared types, if the declarations give no other type
to a first operand. -/

namespace ClassAsm

open Draft

namespace Job

variable {j : Job} {l : Locals} {e : Expr}

/-- The body returns a sum whose first operand has another type than the method for it declares. -/
def misfits (j : Job) : Bool :=
  j.returned?.any fun (l, e) =>
    match e with
    | .binary .add left _ _ =>
      let s := j.site.scope l
      match s.code left with
      | .ok c => ((s.registry.class? c.type.cls).bind (·.operator? .add)).any fun m =>
        m.sig.params.head?.map Prod.snd != some c.type
      | .error _ => false
    | _ => false

theorem exists_of_misfits (h : j.misfits = true) : ∃ l left right span,
    j.Has l (.binary .add left right span) ∧
      ∀ {values m}, (j.site.scope l).Applies [] .add [left, right] values m →
        m.sig.params.map Prod.snd ≠ values.map Code.type := by
  obtain ⟨⟨l, e⟩, returned, misfit⟩ := (Option.any_eq_true _ _).1 h
  have has := has_of_returned? returned
  dsimp only at misfit
  split at misfit
  · next left right span =>
    refine ⟨l, left, right, span, has, fun {values m} applies same => ?_⟩
    split at misfit
    · next c hc =>
      obtain ⟨m', found, differ⟩ := (Option.any_eq_true _ _).1 misfit
      obtain ⟨v, cls, first, hcls, found'⟩ := applies.found
      obtain ⟨rest, rfl⟩ := List.head?_eq_some_iff.1 first
      rw [Scope.code_eq_codeAmid] at hc
      obtain rfl : v = c := by
        cases applies.gives with
        | cons gives => exact Except.ok.inj (gives.1.symm.trans hc)
      obtain rfl : m = m' := by
        simpa [hcls, found'] using found
      have head := congrArg List.head? same
      simp only [List.head?_map, List.map_cons, List.head?_cons] at head
      simp [head] at differ
    · cases misfit
  · cases misfit

end Job

namespace Program

variable {options : Options} {items : List Item} {p : Program} {warnings : Array Warning}

/-- In a program that is accepted, every operator is applied to values for the parameters of its
method, in order and right before the instructions of the method or its call. The values behind the
first have the declared types, and so has the first if the declarations are plain. -/
theorem operators_get_what_they_declare (built : build options items = .ok (p, warnings)) :
    ∀ j ∈ jobs options items, ∀ l e, j.Has l e → ∃ c, (j.site.scope l).code e = .ok c ∧
      (∃ m ∈ p.methods, m.sig = j.method.sig ∧ ∃ s ∈ m.segments, c.instructions <:+: s.code) ∧
      ∀ inlining use op operands, (j.site.scope l).Parts ([], e) (inlining, use) →
        use.Uses op operands →
        ∃ values m, (j.site.scope l).Applies inlining op operands values m ∧
          values.flatMap Code.instructions ++ (j.site.scope l).useOperator m <:+: c.instructions ∧
          (j.site.registry.isPlain = true →
            m.sig.params.map Prod.snd = values.map Code.type) := by
  intro j hj l e has
  obtain ⟨c, hc, inProgram⟩ := exists_code built hj has
  refine ⟨c, hc, inProgram, fun inlining use op operands parts uses => ?_⟩
  obtain ⟨values, m, applies, within⟩ := Scope.applies_of_parts hc parts uses
  exact ⟨values, m, applies, within, applies.types⟩

/-- Operators of a class, one inside of the other, and of numbers. -/
def vectors : List Char :=
  ("class V: field public unit i32 = 1 + 2 def public class V opadd(a: V, b: V): return a ; " ++
    "def public class i32 opnot(a: V): return 1 ; " ++
    "def public static i32 f(a: V, b: V): return !(a + b) * unit ; ;").toList

def takesSum : Expr → Bool
  | .binary _ (.unary _ (.binary .add _ _ _) _) _ _ => true
  | _ => false

theorem operators_get_what_they_declare_vectors : ∃ tokens items p warnings,
    (Lexed.ofSource vectors).tokens = .ok tokens ∧ Item.ofTokens tokens = .ok items ∧
      build {} items = .ok (p, warnings) ∧ ∃ j ∈ jobs {} items, j.site.registry.isPlain = true ∧
        ∃ l e use operands values m, j.Has l e ∧ (j.site.scope l).Parts ([], e) ([], use) ∧
          use.Uses .add operands ∧ (j.site.scope l).Applies [] .add operands values m ∧
          m.sig.params.map Prod.snd = values.map Code.type := by
  have checked : anyJob vectors (fun j =>
      j.site.registry.isPlain && j.returned?.any fun x => takesSum x.2) = true := by
    unfold vectors
    simp only [String.toList_append]
    repeat rewrite [String.toList_ofList]
    decide +kernel
  obtain ⟨tokens, items, p, warnings, lexed, read, built, j, hj, checked⟩ :=
    exists_of_anyJob checked
  obtain ⟨plain, shape⟩ := Bool.and_eq_true_iff.1 checked
  obtain ⟨⟨l, e⟩, returned, shape⟩ := (Option.any_eq_true _ _).1 shape
  have has := Job.has_of_returned? returned
  unfold takesSum at shape
  split at shape
  · next op op' left right span span' right' span'' same =>
    obtain rfl : e = _ := same
    have parts : (j.site.scope l).Parts
        ([], .binary op (.unary op' (.binary .add left right span) span') right' span'')
        ([], .binary .add left right span) := .tail (.single .left) .operand
    obtain ⟨c, -, -, uses⟩ := operators_get_what_they_declare built j hj l _ has
    obtain ⟨values, m, applies, -, types⟩ := uses _ _ _ _ parts .binary
    exact ⟨tokens, items, p, warnings, lexed, read, built, j, hj, plain, l, _, _, _, values, m, has,
      parts, .binary, applies, types plain⟩
  · cases shape

/-- The method for `+` is declared for other values than those of its class. -/
def adding : List Char :=
  ("class A: def public class i32 opadd(a: i32, b: i32): return b ; " ++
    "def public static i32 f(x: A): return x + 1 ; ;").toList

/-- Values of a class are added by a method for two numbers. -/
theorem first_operand_may_differ : ∃ tokens items p warnings,
    (Lexed.ofSource adding).tokens = .ok tokens ∧ Item.ofTokens tokens = .ok items ∧
      build {} items = .ok (p, warnings) ∧ ∃ j ∈ jobs {} items, ∃ l e operands values m,
        j.Has l e ∧ e.Uses .add operands ∧ (j.site.scope l).Applies [] .add operands values m ∧
          m.sig.params.map Prod.snd ≠ values.map Code.type := by
  have checked : anyJob adding Job.misfits = true := by
    unfold adding
    simp only [String.toList_append]
    repeat rewrite [String.toList_ofList]
    decide +kernel
  obtain ⟨tokens, items, p, warnings, lexed, read, built, j, hj, checked⟩ :=
    exists_of_anyJob checked
  obtain ⟨l, left, right, span, has, misfit⟩ := Job.exists_of_misfits checked
  obtain ⟨c, hc, -⟩ := exists_code built hj has
  obtain ⟨values, m, applies, -⟩ := Scope.applies_of_parts hc .refl .binary
  exact ⟨tokens, items, p, warnings, lexed, read, built, j, hj, l, _, _, values, m, has, .binary,
    applies, misfit applies⟩

end Program
end ClassAsm
