import ClassAsm.Proofs.Code.Expansion

/-! What code stores. The code of an expression reads fields and calls methods, and stores nothing in
a field itself. -/

namespace ClassAsm

namespace Instruction

/-- The field in which the instruction stores a value. -/
def stored? : Instruction → Option String
  | stsfld field | stfld field => some field
  | _ => none

end Instruction

/-- The fields in which the code stores a value, in order. -/
def storedFields (code : List Instruction) : List String := code.filterMap Instruction.stored?

section

variable {a b : List Instruction}

@[simp] theorem storedFields_nil : storedFields [] = [] := rfl

@[simp] theorem storedFields_append : storedFields (a ++ b) = storedFields a ++ storedFields b :=
  List.filterMap_append

theorem storedFields_flatMap {α : Type} (l : List α) (f : α → List Instruction) :
    storedFields (l.flatMap f) = l.flatMap fun x => storedFields (f x) :=
  List.filterMap_flatMap

end

theorem Numeric.storedFields_template? {n : Numeric} {op : Operation} {code : List Instruction}
    (h : n.template? op = some code) : storedFields code = [] := by
  cases op <;> simp only [template?, Option.some.injEq, reduceCtorEq] at h <;> subst h <;>
    cases n <;> rfl

namespace Scope

variable {s : Scope}

theorem storedFields_useOperator (hs : s.registry.Installed s.builtins) {t : TypeRef}
    {op : Operation} {span : Span} {m : Method} (h : s.operator t op span = .ok m) :
    storedFields (s.useOperator m) = [] := by
  obtain called | ⟨n, key, code, -, ht, rfl⟩ := useOperator_cases hs h
  · rw [called]
    rfl
  · exact Numeric.storedFields_template? ht

theorem storedFields_intCode (v : Nat) : storedFields (s.intCode v).instructions = [] := by
  unfold intCode
  split <;> rfl

theorem storedFields_floatCode (v : Binary64) :
    storedFields (s.floatCode v).instructions = [] := by
  unfold floatCode
  split <;> rfl

theorem storedFields_addressArgument {callee param : String} {type : TypeRef} {arg : Expr}
    {code : List Instruction} (h : s.addressArgument callee param type arg = .ok code) :
    storedFields code = [] := by
  unfold addressArgument at h
  simp only at h
  split at h
  · cases h
  · split at h
    · cases h
      split <;> rfl
    · cases h

theorem storedFields_nameCode {name : String} {span : Span} {c : Code}
    (h : s.nameCode (fun _ => none) name span = .ok c) : storedFields c.instructions = [] := by
  unfold nameCode at h
  split at h
  · cases h
    unfold loadLocal
    split <;> rfl
  simp only at h
  split at h
  · cases h
  split at h
  · cases h
    rfl
  split at h
  · cases h
    rfl
  · cases h

/-- The code of an operand with that of an operator behind it. -/
theorem storedFields_unaryCode (hs : s.registry.Installed s.builtins) {op : UnaryOp}
    {operand : Expr} {span : Span} {o c : Code}
    (h : s.unaryCode op operand span (.ok o) = .ok c) :
    storedFields c.instructions = storedFields o.instructions := by
  simp only [unaryCode, ok_bind, bind_eq_ok, needValue_eq_ok] at h
  obtain ⟨_, ⟨-, rfl⟩, h⟩ := h
  split at h
  · obtain ⟨m, hm, h⟩ := bind_eq_ok.1 h
    cases h
    rw [storedFields_append, storedFields_useOperator hs hm, List.append_nil]
  · split at h <;> cases h
    rw [storedFields_append]
    split <;> exact List.append_nil _

theorem storedFields_castCode {operand : Expr} {target : String} {targetSpan span : Span}
    {o c : Code} (h : s.castCode operand target targetSpan span (.ok o) = .ok c) :
    storedFields c.instructions = storedFields o.instructions := by
  simp only [castCode, ok_bind, bind_eq_ok, needValue_eq_ok] at h
  obtain ⟨_, ⟨-, rfl⟩, type, -, h⟩ := h
  split at h <;> cases h
  rw [storedFields_append]
  exact List.append_nil _

theorem storedFields_binaryCode (hs : s.registry.Installed s.builtins) {op : BinaryOp}
    {left right : Expr} {span : Span} {l r c : Code} {x : Code × Method}
    (first : s.leftCode op left span (.ok l) = .ok x)
    (h : s.binaryCode op right x (.ok r) = .ok c) :
    storedFields c.instructions = storedFields l.instructions ++ storedFields r.instructions := by
  simp only [leftCode, ok_bind, bind_eq_ok, needValue_eq_ok] at first
  obtain ⟨_, ⟨-, rfl⟩, m, hm, first⟩ := first
  cases first
  simp only [binaryCode, ok_bind, bind_eq_ok, needValue_eq_ok] at h
  obtain ⟨_, ⟨-, rfl⟩, h⟩ := h
  split at h
  · cases h
  cases h
  have negation : storedFields (if op = .ne then [.ldcI4 0, .arith .ceq] else []) = [] := by
    split <;> rfl
  simp only [storedFields_append, storedFields_useOperator hs hm, negation, List.append_nil]

theorem storedFields_callCode (sig : Signature) (given : List Instruction) :
    storedFields (s.callCode sig given).instructions = storedFields given := by
  have receiver : storedFields (if sig.takesReceiver then [.ldarg 0] else []) = [] := by
    split <;> rfl
  rw [callCode, storedFields_append, storedFields_append, receiver]
  exact List.append_nil _

/-- The code that comes before a goal. -/
def Goal.given : Goal → List Instruction
  | .expr _ => []
  | .args _ _ given _ _ => given

theorem Compiles.storedFields (hs : s.registry.Installed s.builtins) {before after : List String}
    {g : Goal} {r : Except Failure Code} (h : s.Compiles before g r after) {c : Code}
    (ok : r = .ok c) : storedFields c.instructions = storedFields g.given := by
  induction h generalizing c with
  | int =>
    cases ok
    exact storedFields_intCode _
  | float =>
    cases ok
    exact storedFields_floatCode _
  | str =>
    cases ok
    rfl
  | name => exact storedFields_nameCode ok
  | default _ _ _ _ ih =>
    obtain ⟨filled, hf, rfl⟩ := map_eq_ok.1 ok
    obtain ⟨value, hv, -, -, rfl⟩ := fill_eq_ok.1 hf
    exact (ih hv :)
  | leftStops | callStops | addressStops | valueStops => cases ok
  | @binary _ _ _ _ _ _ _ r r' _ _ goes _ ih ih' =>
    cases r with
    | error => cases goes
    | ok l =>
      cases r' with
      | error => cases ok
      | ok r =>
        rw [storedFields_binaryCode hs goes ok, ih rfl, ih' rfl]
        rfl
  | @unary _ _ _ _ _ r _ ih =>
    cases r with
    | error => cases ok
    | ok o => exact (storedFields_unaryCode hs ok).trans (ih rfl)
  | @cast _ _ _ _ _ _ r _ ih =>
    cases r with
    | error => cases ok
    | ok o => exact (storedFields_castCode ok).trans (ih rfl)
  | call _ _ ih => exact ih ok
  | done =>
    cases ok
    exact storedFields_callCode _ _
  | address _ goes _ ih =>
    rw [ih ok, Goal.given, storedFields_append, storedFields_addressArgument goes,
      List.append_nil]
    rfl
  | value _ _ goes _ ih ih' =>
    obtain ⟨c', hc', -, -, rfl⟩ := passCode_eq_ok.1 goes
    rw [ih' ok, Goal.given, storedFields_append, ih hc']
    exact List.append_nil _

/-- The code of an expression stores nothing in a field. -/
theorem storedFields_code (hs : s.registry.Installed s.builtins) {e : Expr} {c : Code}
    (h : s.code e = .ok c) : storedFields c.instructions = [] :=
  (compiles_total [] e).storedFields hs (code_eq_codeAmid e ▸ h)

end Scope
end ClassAsm
