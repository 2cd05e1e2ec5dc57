import ClassAsm.Proofs.Code.Parts
import ClassAsm.Proofs.Code.References
import ClassAsm.Proofs.Kinds.Replay

/-! The operands of operators. The class of the first operand chooses the method. Its number of
parameters and the type of the second operand are checked, and the type of the first operand is not: a
method may declare another type for it, and the operand itself may be typed as an address. Where
neither occurs in the declarations, the operands have the types of the parameters. -/

namespace ClassAsm

/-- An operator is used, with the operation that it stands for and its operands. -/
inductive Expr.Uses : Expr → Operation → List Expr → Prop where
  | binary {op : BinaryOp} {left right : Expr} {span : Span} :
      Uses (.binary op left right span) op.operation [left, right]
  | not {operand : Expr} {span : Span} : Uses (.unary .not operand span) .not [operand]

def Class.takesItself (c : Class) (id : ClassId) : Bool :=
  Operation.dispatched.all fun op => (c.operator? op).all fun m =>
    m.sig.params.head?.all fun p => p.2 = { cls := id }

def Class.holdsValues (c : Class) : Bool :=
  c.fields.all (!·.type.isAddress) && c.methods.all (!·.sig.returnType.isAddress)

/-- No class takes something else for its operators, and none has addresses as values. -/
def Registry.isPlain (r : Registry) : Bool :=
  r.classes.toList.zipIdx.all fun (c, id) => c.takesItself id && c.holdsValues

theorem Registry.class_of_isPlain {r : Registry} (plain : r.isPlain = true) {id : ClassId}
    {c : Class} (h : r.class? id = some c) : c.takesItself id = true ∧ c.holdsValues = true := by
  have mem : (c, id) ∈ r.classes.toList.zipIdx := by
    rw [List.mem_zipIdx_iff_getElem?, Array.getElem?_toList]
    exact h
  exact Bool.and_eq_true_iff.1 (List.all_eq_true.1 plain _ mem)

theorem Class.first_of_takesItself {c : Class} {id : ClassId} (h : c.takesItself id = true)
    {op : Operation} {m : Method} (found : c.operator? op = some m) {p : String × TypeRef}
    {ps : List (String × TypeRef)} (params : m.sig.params = p :: ps) : p.2 = { cls := id } := by
  have dispatched : op ∈ Operation.dispatched := by
    cases op with
    | cast => simp [Class.operator?, Operation.key?] at found
    | _ => decide
  have first := List.all_eq_true.1 h op dispatched
  simpa [found, params] using first

theorem Class.field_of_holdsValues {c : Class} (h : c.holdsValues = true) {f : Field}
    (hf : f ∈ c.fields) : f.type.isAddress = false := by
  simpa using List.all_eq_true.1 (Bool.and_eq_true_iff.1 h).1 f hf

theorem Class.result_of_holdsValues {c : Class} (h : c.holdsValues = true) {m : Method}
    (hm : m ∈ c.methods) : m.sig.returnType.isAddress = false := by
  simpa using List.all_eq_true.1 (Bool.and_eq_true_iff.1 h).2 m hm

namespace Scope

variable {s : Scope} {inlining : List String}

/-- A method is applied to values of the operands, in order: the method that the class of the first
has for the operation, with a parameter for each. The types after the first are those of the
parameters. -/
structure Applies (s : Scope) (inlining : List String) (op : Operation) (operands : List Expr)
    (values : List Code) (m : Method) : Prop where
  gives : List.Forall₂ (s.Gives inlining) operands values
  found : ∃ v c, values.head? = some v ∧ s.registry.class? v.type.cls = some c ∧
    c.operator? op = some m
  count : m.sig.params.length = values.length
  others : (m.sig.params.map Prod.snd).tail = (values.map Code.type).tail

/-- The operands come in order, and the method right behind them; `!=` negates what it gives. -/
theorem exists_applies {e : Expr} {op : Operation} {operands : List Expr}
    (use : e.Uses op operands) {whole : Code} (h : s.codeAmid inlining e = .ok whole) :
    ∃ values m rest, s.Applies inlining op operands values m ∧
      whole.instructions = values.flatMap Code.instructions ++ s.useOperator m ++ rest ∧
      (rest = [] ∨ rest = [.ldcI4 0, .arith .ceq]) := by
  cases use with
  | @binary op left right span =>
    obtain ⟨⟨l, r, m, hl, hr, found, count, second, -, code⟩⟩ := combines_of_codeAmid h
    obtain ⟨c, hc, found⟩ := Option.bind_eq_some_iff.1 found
    refine ⟨[l, r], m, _, ⟨.cons hl (.cons hr .nil), ⟨l, c, rfl, hc, found⟩, count, ?_⟩, ?_,
      (ite_eq_or_eq (op = .ne) _ _).symm⟩
    · obtain ⟨p, q, params⟩ := List.length_eq_two.1 count
      have type := second q (by simp [params])
      simp [params, type]
    · rw [code]
      simp only [List.flatMap_cons, List.flatMap_nil, List.append_nil]
  | not =>
    simp only [codeAmid_unary, unaryCode, bind_eq_ok, needValue_eq_ok] at h
    obtain ⟨c, hc, _, ⟨hv, rfl⟩, m, hm, h⟩ := h
    cases h
    obtain ⟨found, count⟩ := operator_eq_ok.1 hm
    obtain ⟨cls, hcls, found⟩ := Option.bind_eq_some_iff.1 found
    refine ⟨[c], m, [], ⟨.cons ⟨hc, hv⟩ .nil, ⟨c, cls, rfl, hcls, found⟩, count, ?_⟩, ?_, .inl rfl⟩
    · obtain ⟨p, params⟩ := List.length_eq_one_iff.1 count
      simp [params]
    · simp

theorem applies_of_uses {e : Expr} {op : Operation} {operands : List Expr} (use : e.Uses op operands)
    {whole : Code} (h : s.codeAmid inlining e = .ok whole) :
    ∃ values m, s.Applies inlining op operands values m ∧
      values.flatMap Code.instructions ++ s.useOperator m <+: whole.instructions := by
  obtain ⟨values, m, rest, applies, code, -⟩ := exists_applies use h
  exact ⟨values, m, applies, rest, code.symm⟩

theorem applies_of_parts {e use : Expr} {op : Operation} {operands : List Expr} {c : Code}
    (h : s.code e = .ok c) (parts : s.Parts ([], e) (inlining, use)) (uses : use.Uses op operands) :
    ∃ values m, s.Applies inlining op operands values m ∧
      values.flatMap Code.instructions ++ s.useOperator m <:+: c.instructions := by
  rw [code_eq_codeAmid] at h
  obtain ⟨whole, code, within⟩ := parts.code h
  obtain ⟨values, m, applies, first⟩ := applies_of_uses uses code
  exact ⟨values, m, applies, first.isInfix.trans within⟩

/-- A value that comes from a name is no address, if no field holds one: the address in a local is
followed. -/
theorem nameCode_value (plain : s.registry.isPlain = true) {standIn : StandIn} {name : String}
    {span : Span} {c : Code} (h : s.nameCode standIn name span = .ok c) :
    c.type.isAddress = false := by
  have ofField {f : Field} (hf : s.field? name = some f) : f.type.isAddress = false := by
    obtain ⟨cls, hc, found⟩ := Option.bind_eq_some_iff.1 hf
    exact Class.field_of_holdsValues (Registry.class_of_isPlain plain hc).2
      (Class.mem_of_field? found).1
  unfold nameCode at h
  split at h
  · next slot type _ =>
    cases h
    unfold loadLocal
    split
    · rfl
    · next value => simpa using value
  · split at h
    · cases h
    next f hf =>
    dsimp only at h
    split at h
    · cases h
      exact ofField hf
    split at h
    · cases h
      exact ofField hf
    split at h
    · cases h
    · obtain ⟨_, -, rfl⟩ := map_eq_ok.1 h
      exact ofField hf

theorem value_of_isPlain (plain : s.registry.isPlain = true) :
    ∀ {e : Expr} {c : Code}, s.codeAmid inlining e = .ok c → c.type.isAddress = false
  | .int v span, c, h => by
    rw [codeAmid_eq, codeWith] at h
    cases h
    unfold intCode
    split <;> rfl
  | .float v span, c, h => by
    rw [codeAmid_eq, codeWith] at h
    cases h
    unfold floatCode
    split <;> rfl
  | .str v span, c, h => by
    rw [codeAmid_eq, codeWith] at h
    cases h
    rfl
  | .ident name span, c, h => by
    rw [codeAmid_eq, codeWith] at h
    exact nameCode_value plain h
  | .binary op left right span, c, h => by
    obtain ⟨⟨l, r, m, -, -, found, -, -, type, -⟩⟩ := combines_of_codeAmid h
    obtain ⟨cls, hc, found⟩ := Option.bind_eq_some_iff.1 found
    rw [type]
    exact Class.result_of_holdsValues (Registry.class_of_isPlain plain hc).2
      (Class.mem_of_operator? found)
  | .unary op operand span, c, h => by
    simp only [codeAmid_unary, unaryCode, bind_eq_ok, needValue_eq_ok] at h
    obtain ⟨o, ho, _, ⟨-, rfl⟩, h⟩ := h
    split at h
    · obtain ⟨m, hm, h⟩ := bind_eq_ok.1 h
      cases h
      obtain ⟨cls, hc, found⟩ := Option.bind_eq_some_iff.1 (operator_eq_ok.1 hm).1
      exact Class.result_of_holdsValues (Registry.class_of_isPlain plain hc).2
        (Class.mem_of_operator? found)
    · have value := value_of_isPlain plain ho
      split at h <;> cases h
      exact value
  | .call name nameSpan args span, c, h => by
    simp only [codeAmid_call, bind_eq_ok, Except.ok.injEq] at h
    obtain ⟨sig, called, _, -, rfl⟩ := h
    obtain ⟨cls, m, hc, hm, rfl⟩ := callee_eq_ok (calledWith_eq_ok.1 called).1
    exact Class.result_of_holdsValues (Registry.class_of_isPlain plain hc).2 hm
  | .cast operand target targetSpan span, c, h => by
    simp only [codeAmid_cast, castCode, bind_eq_ok] at h
    obtain ⟨_, -, _, -, type, -, h⟩ := h
    split at h
    · next value =>
      cases h
      exact value
    · cases h

theorem Applies.types {op : Operation} {operands : List Expr} {values : List Code} {m : Method}
    (h : s.Applies inlining op operands values m) (plain : s.registry.isPlain = true) :
    m.sig.params.map Prod.snd = values.map Code.type := by
  obtain ⟨v, c, first, hc, found⟩ := h.found
  obtain ⟨rest, rfl⟩ := List.head?_eq_some_iff.1 first
  obtain ⟨p, params, hp⟩ : ∃ p params, m.sig.params = p :: params :=
    List.exists_cons_of_length_pos (h.count ▸ Nat.succ_pos _)
  have takes := Class.first_of_takesItself (Registry.class_of_isPlain plain hc).1 found hp
  have others := h.others
  have value : v.type.isAddress = false := by
    cases h.gives with
    | cons gives => exact value_of_isPlain plain gives.1
  simp only [hp, List.map_cons, List.tail_cons] at others
  rw [hp, List.map_cons, List.map_cons, others, takes, ← TypeRef.eq_of_isAddress value]

end Scope
end ClassAsm
