import ClassAsm.Proofs.Code.Height
import ClassAsm.Proofs.Registry.Operations
import ClassAsm.Program

/-! A registry with the built-in classes. Bodies are compiled against declarations in which every
operator of a numeric class is its template, and every other operator is still to be compiled. -/

namespace ClassAsm

namespace Numeric

theorem template?_straight {n : Numeric} {op : Operation} {code : List Instruction}
    (h : n.template? op = some code) : Straight code := by
  cases op <;> simp only [template?, Option.some.injEq, reduceCtorEq] at h <;> subst h <;>
    cases n <;> simp [Straight, Instruction.isControl, zero]

/-- A template takes the operands of its operation and leaves one value. -/
theorem template?_moves {n : Numeric} {op : Operation} {code : List Instruction}
    (h : n.template? op = some code) : Moves code op.arity 1 := by
  have one (a : Arith) : Moves [.arith a] 2 1 := Moves.one _
  have zeroed : Moves [n.zero, .arith .ceq] 1 1 := by
    have hz : Moves [n.zero] 0 1 := by cases n <;> exact Moves.one _
    exact (hz.frame 1).append (Moves.one _)
  have above : Moves [n.zero, .arith .cgtUn] 1 1 := by
    have hz : Moves [n.zero] 0 1 := by cases n <;> exact Moves.one _
    exact (hz.frame 1).append (Moves.one _)
  have negated (a : Arith) : Moves [.arith a, .ldcI4 0, .arith .ceq] 2 1 :=
    (one a).append (((Moves.one (.ldcI4 0)).frame 1).append (one .ceq))
  cases op <;> simp only [template?, Option.some.injEq, reduceCtorEq] at h <;> subst h
  case greaterThanEquals | lesserThanEquals => exact negated _
  case not | isFalse => exact zeroed
  case isTrue => exact above
  all_goals exact one _

end Numeric

namespace Registry

structure Installed (r : Registry) (b : Builtins) : Prop where
  builtins : b = ⟨0, 1, 2, 3, 4, 5⟩
  /-- The operators of a numeric class are its templates. -/
  numeric : ∀ {id : ClassId} {n : Numeric} {m : Method} {op : Operation}, b.numeric? id = some n →
    (r.class? id).bind (·.operator? op) = some m →
    ∃ key code, op.key? = some key ∧ n.template? op = some code ∧ m = n.method id op key code
  /-- All other operators are compiled later. -/
  pending : ∀ {id : ClassId} {m : Method} {op : Operation}, b.numeric? id = none →
    (r.class? id).bind (·.operator? op) = some m → m.body = .pending

end Registry

namespace Builtins

variable {b : Builtins} {id : ClassId} {n : Numeric}

theorem numeric?_void (h : b = ⟨0, 1, 2, 3, 4, 5⟩) : b.numeric? b.void = none := by
  subst h
  rfl

/-- A numeric class leaves a value. -/
theorem ne_void_of_numeric? (h : b = ⟨0, 1, 2, 3, 4, 5⟩) (hn : b.numeric? id = some n) :
    id ≠ b.void := by
  rintro rfl
  rw [numeric?_void h] at hn
  cases hn

end Builtins

/-! The registry before any class of a program is placed. -/

namespace Operation

theorem key?_injective {op op' : Operation} {key : String} (h : op.key? = some key)
    (h' : op'.key? = some key) : op = op' := by
  cases op <;> cases h <;> cases op' <;> first | rfl | exact absurd h' (by decide)

end Operation

theorem Class.mem_of_operator? {c : Class} {op : Operation} {m : Method}
    (h : c.operator? op = some m) : m ∈ c.methods := by
  simp only [Class.operator?, Option.bind_eq_bind, Option.bind_eq_some_iff] at h
  obtain ⟨_, _, _, _, h⟩ := h
  exact (Class.mem_of_method? h).1

namespace Numeric

variable {n : Numeric} {id : ClassId} {c : Class}

/-- The class has no methods but templates, each registered under its own name. -/
structure Implements (n : Numeric) (id : ClassId) (c : Class) : Prop where
  methods : ∀ m ∈ c.methods, ∃ op key code, op.key? = some key ∧ n.template? op = some code ∧
    m = n.method id op key code
  operators : ∀ p ∈ c.operators, p.2 = p.1

theorem Implements.addOperator (h : Implements n id c) (op : Operation) :
    Implements n id (n.addOperator id c op) := by
  unfold Numeric.addOperator
  split
  · next key code hk ht =>
    obtain ⟨new, added⟩ | ⟨-, added⟩ := c.addMethod_cases (n.method id op key code)
    · rw [added]
      refine ⟨fun m hm => ?_, fun p hp => ?_⟩
      · rcases List.mem_append.1 (Class.methods_pushMethod new ▸ hm) with hm | hm
        · exact h.methods m hm
        · exact ⟨op, key, code, hk, ht, List.mem_singleton.1 hm⟩
      · rcases List.mem_cons.1 hp with rfl | hp
        · rfl
        · exact h.operators p (List.mem_of_mem_filter hp)
    · rw [added]
      refine ⟨h.methods, fun p hp => ?_⟩
      rcases List.mem_cons.1 hp with rfl | hp
      · rfl
      · exact h.operators p (List.mem_of_mem_filter hp)
  · exact h

theorem Implements.foldl (h : Implements n id c) (ops : List Operation) :
    Implements n id (ops.foldl (n.addOperator id) c) := by
  induction ops generalizing c with
  | nil => exact h
  | cons op ops ih => exact ih (h.addOperator op)

theorem Implements.operator? (h : Implements n id c) {op : Operation} {m : Method}
    (hm : c.operator? op = some m) :
    ∃ key code, op.key? = some key ∧ n.template? op = some code ∧ m = n.method id op key code := by
  simp only [Class.operator?, Option.bind_eq_bind, Option.bind_eq_some_iff] at hm
  obtain ⟨key, hk, name, hn, hm⟩ := hm
  obtain ⟨l₁, l₂, hl, -⟩ := List.lookup_eq_some_iff.1 hn
  obtain rfl : name = key := h.operators (key, name) (by simp [hl])
  obtain ⟨member, named⟩ := Class.mem_of_method? hm
  obtain ⟨op', key, code, hk', ht, rfl⟩ := h.methods m member
  obtain rfl : key = name := named
  obtain rfl := Operation.key?_injective hk hk'
  exact ⟨key, code, hk, ht, rfl⟩

/-- The number of the class. -/
def classId : Numeric → ClassId
  | i32 => 0
  | i64 => 1
  | f32 => 2
  | f64 => 3

theorem numeric?_eq_some_iff {i : Nat} :
    (Builtins.mk 0 1 2 3 4 5).numeric? i = some n ↔ i = n.classId := by
  unfold Builtins.numeric?
  cases n <;> simp only [classId] <;> split_ifs <;> simp_all

theorem exists_classId {i : Nat} (h : i < 4) : ∃ n : Numeric, i = n.classId := by
  obtain rfl | rfl | rfl | rfl : i = 0 ∨ i = 1 ∨ i = 2 ∨ i = 3 := by omega
  exacts [⟨.i32, rfl⟩, ⟨.i64, rfl⟩, ⟨.f32, rfl⟩, ⟨.f64, rfl⟩]

end Numeric

namespace Registry

def builtinClass (name asmName : String) : Class :=
  { nspace := builtinNamespace, name := name, asmName := asmName, isPublic := true,
    isBuiltin := true }

theorem addBuiltin_eq (r : Registry) (name asmName : String) : r.addBuiltin name asmName =
    ({ r with
      classes := r.classes.push (builtinClass name asmName)
      builtins := (name, r.classes.size) :: r.builtins }, r.classes.size) := rfl

end Registry

/-- The class of a kind of number under a given number. -/
def Numeric.cls (n : Numeric) (id : ClassId) : Class :=
  Operation.dispatched.foldl (n.addOperator id) (Registry.builtinClass n.name n.asmName)

theorem Numeric.fields_cls (n : Numeric) (id : ClassId) : (n.cls id).fields = [] := by
  have kept (c : Class) (op : Operation) : (n.addOperator id c op).fields = c.fields := by
    unfold addOperator
    split <;> rfl
  have run (ops : List Operation) (c : Class) :
      (ops.foldl (n.addOperator id) c).fields = c.fields := by
    induction ops generalizing c with
    | nil => rfl
    | cons op ops ih => exact (ih _).trans (kept c op)
  exact run Operation.dispatched _

theorem Numeric.install_eq (n : Numeric) (r : Registry) : n.install r =
    ({ r with
      classes := r.classes.push (n.cls r.classes.size)
      builtins := (n.name, r.classes.size) :: r.builtins }, r.classes.size) := by
  have last (c : Class) (f : Class → Class) :
      (r.classes.push c).modify r.classes.size f = r.classes.push (f c) :=
    Array.ext_getElem? fun i => by
      simp only [Array.getElem?_modify, Array.getElem?_push]
      split <;> simp_all [eq_comm]
  simp only [install, Registry.addBuiltin_eq, Registry.updateClass, last]
  rfl

namespace Registry

def base : Registry := (Builtins.install Registry.empty).1

theorem classes_base : base.classes = #[Numeric.i32.cls 0, Numeric.i64.cls 1, Numeric.f32.cls 2,
    Numeric.f64.cls 3, builtinClass "string" "string", builtinClass "void" "void"] := by
  simp only [base, Builtins.install, Numeric.install_eq, addBuiltin_eq, aliasBuiltin, empty]
  rfl

theorem namespaces_base : base.namespaces = [{ name := defaultNamespace }] := by
  simp only [base, Builtins.install, Numeric.install_eq, addBuiltin_eq, aliasBuiltin, empty]

theorem size_base : base.classes.size = 6 := by
  rw [classes_base]
  rfl

theorem class?_base (n : Numeric) :
    ∃ c, base.class? n.classId = some c ∧ Numeric.Implements n n.classId c := by
  have shell : Numeric.Implements n n.classId (builtinClass n.name n.asmName) :=
    ⟨by simp [builtinClass, Class.methods], by simp [builtinClass]⟩
  refine ⟨n.cls n.classId, ?_, shell.foldl _⟩
  rw [class?, classes_base]
  cases n <;> simp [Numeric.classId]

/-- Built-in classes have no fields. -/
theorem fields_base {c : Class} (hc : c ∈ base.classes.toList) : c.fields = [] := by
  simp only [classes_base, List.mem_cons, List.not_mem_nil, or_false] at hc
  obtain rfl | rfl | rfl | rfl | rfl | rfl := hc
  iterate 4 exact Numeric.fields_cls _ _
  all_goals rfl

/-- Of the other built-in classes none has methods. -/
theorem methods_base {i : Nat} {c : Class} (h : base.class? i = some c) (hi : 4 ≤ i) :
    c.methods = [] := by
  obtain ⟨hlt, -⟩ := Array.getElem?_eq_some_iff.1 h
  rw [size_base] at hlt
  rw [class?, classes_base] at h
  obtain rfl | rfl : i = 4 ∨ i = 5 := by omega
  all_goals cases h; rfl

/-- Built-in methods are templates of operations. -/
theorem template_base {c : Class} (hc : c ∈ base.classes.toList) {m : Method}
    (hm : m ∈ c.methods) : ∃ (n : Numeric) (op : Operation) (key : String)
      (code : List Instruction), m = n.method n.classId op key code := by
  obtain ⟨i, hi, rfl⟩ := List.mem_iff_getElem.1 hc
  have hget : base.class? i = some base.classes.toList[i] := by
    rw [class?, ← Array.getElem?_toList, List.getElem?_eq_getElem hi]
  by_cases hge : 4 ≤ i
  · rw [methods_base hget hge] at hm
    cases hm
  · obtain ⟨n, rfl⟩ := Numeric.exists_classId (not_le.1 hge)
    obtain ⟨c, hc', himp⟩ := class?_base n
    rw [hget] at hc'
    obtain rfl := Option.some.inj hc'
    obtain ⟨op, key, code, -, -, he⟩ := himp.methods m hm
    exact ⟨n, op, key, code, he⟩

theorem inline_base {c : Class} (hc : c ∈ base.classes.toList) {m : Method} (hm : m ∈ c.methods) :
    ∃ code, m.body = .inline code := by
  obtain ⟨n, op, key, code, rfl⟩ := template_base hc hm
  exact ⟨code, rfl⟩

theorem inline_of_class?_base {id : ClassId} {c : Class} (h : base.class? id = some c) {m : Method}
    (hm : m ∈ c.methods) : ∃ code, m.body = .inline code :=
  inline_base (Array.mem_toList_iff.2 (Array.mem_of_getElem? h)) hm

/-- The first classes are the built-in ones, and no other class has a body yet. -/
structure Declares (r : Registry) : Prop where
  base : ∀ i : Nat, i < 6 → r.class? i = base.class? i
  pending : ∀ {i : Nat} {c : Class}, 6 ≤ i → r.class? i = some c →
    ∀ m ∈ c.methods, m.body = .pending

theorem Declares.installed {r : Registry} (h : Declares r) : Installed r ⟨0, 1, 2, 3, 4, 5⟩ where
  builtins := rfl
  numeric := by
    intro id n m op hn hm
    obtain rfl := Numeric.numeric?_eq_some_iff.1 hn
    obtain ⟨c, hc, hi⟩ := class?_base n
    rw [h.base _ (by cases n <;> decide), hc] at hm
    exact hi.operator? hm
  pending := by
    intro (id : Nat) m op hn hm
    obtain ⟨c, hc, ho⟩ := Option.bind_eq_some_iff.1 hm
    have hmem := Class.mem_of_operator? ho
    by_cases hi : 6 ≤ id
    · exact h.pending hi hc m hmem
    · -- the classes of strings and of nothing have no methods
      have hge : 4 ≤ id := by
        by_contra hlt
        obtain ⟨n, rfl⟩ := Numeric.exists_classId (not_le.1 hlt)
        rw [Numeric.numeric?_eq_some_iff.2 rfl] at hn
        cases hn
      rw [h.base id (not_le.1 hi)] at hc
      rw [methods_base hc hge] at hmem
      cases hmem

end Registry
end ClassAsm
