import ClassAsm.Proofs.Code.Operators

/-! Where the instructions of an expression come from. An expression puts a few instructions next to
the codes of its parts: the receiver where the method at hand has one, a call of a method of the class
at hand, a call of the method that is chosen for an operator, the constant of a float, the instructions
that stand for an operation on numbers, and for the rest such that concern neither arguments nor calls
nor floats. Parts end, so each instruction of the code is put there by some part. -/

namespace ClassAsm

def Instruction.isInner : Instruction → Bool
  | ldarg _ | call .. => false
  | _ => true

def Instruction.isPlain : Instruction → Bool
  | ldarg _ | call .. | ldcR4 _ | ldcR8 _ => false
  | _ => true

theorem Instruction.isInner_of_isPlain {i : Instruction} (h : i.isPlain = true) : i.isInner = true := by
  cases i with
  | ldarg | call => cases h
  | _ => rfl

theorem Numeric.inner_of_template? {n : Numeric} {op : Operation} {code : List Instruction}
    (h : n.template? op = some code) : ∀ i ∈ code, i.isInner = true := by
  cases op <;> simp only [template?, Option.some.injEq, reduceCtorEq] at h <;> subst h <;>
    cases n <;> decide

namespace Scope

variable {s : Scope} {inlining : List String} {i : Instruction}

/-! Parts end. -/

theorem Part.lt {x y : List String × Expr} (h : s.Part x y) :
    (s.openFields y.1).length < (s.openFields x.1).length ∨
      (y.1 = x.1 ∧ sizeOf y.2 < sizeOf x.2) := by
  cases h with
  | left | right | operand | converted =>
    refine .inr ⟨rfl, ?_⟩
    simp only [Expr.binary.sizeOf_spec, Expr.unary.sizeOf_spec, Expr.cast.sizeOf_spec]
    omega
  | argument _ given _ =>
    have smaller := List.sizeOf_lt_of_mem (List.of_mem_zip given).1
    refine .inr ⟨rfl, ?_⟩
    simp only [Expr.call.sizeOf_spec]
    omega
  | default stands new =>
    obtain ⟨-, -, f, found, -, -⟩ := default?_eq_some_iff.1 stands
    obtain rfl := name_of_field? found
    exact .inl (length_openFields_lt found new)

theorem wellFounded_part (s : Scope) : WellFounded fun y x => s.Part x y := by
  refine Subrelation.wf ?_ (InvImage.wf
    (fun x : List String × Expr => ((s.openFields x.1).length, sizeOf x.2))
    (Prod.lex Nat.lt_wfRel Nat.lt_wfRel).wf)
  intro y x part
  rcases part.lt with less | ⟨same, less⟩
  · exact .left _ _ less
  · change Prod.Lex _ _ ((s.openFields y.1).length, _) ((s.openFields x.1).length, _)
    rw [same]
    exact .right _ less

/-! What one expression puts there. -/

/-- An instruction that an expression puts next to the codes of its parts. -/
inductive Puts (s : Scope) : List String × Expr → Instruction → Prop where
  | inner {x : List String × Expr} {i : Instruction} (h : i.isInner = true) : Puts s x i
  | receiver {x : List String × Expr} (h : s.hasReceiver = true) : Puts s x (.ldarg 0)
  /-- A method of the class at hand is called. -/
  | call {inlining : List String} {name : String} {nameSpan span : Span} {args : List Expr}
      {sig : Signature} (called : s.calledWith name nameSpan args = .ok sig) (pops : Nat) :
      Puts s (inlining, .call name nameSpan args span)
        (.call (s.registry.callTarget sig) pops (s.pushes sig.returnType))
  /-- The method for an operator is called. -/
  | operator {inlining : List String} {e : Expr} {op : Operation} {operands : List Expr}
      {values : List Code} {m : Method} (uses : e.Uses op operands)
      (applies : s.Applies inlining op operands values m) (pending : m.body = .pending) (pops : Nat) :
      Puts s (inlining, e) (.call (s.registry.callTarget m.sig) pops (s.pushes m.sig.returnType))

/-- An instruction that an expression puts next to the codes of its parts, and with floats apart. -/
inductive Forms (s : Scope) : List String × Expr → Instruction → Prop where
  | plain {x : List String × Expr} {i : Instruction} (h : i.isPlain = true) : Forms s x i
  | literal {inlining : List String} {v : Binary64} {span : Span} {i : Instruction}
      (mem : i ∈ (s.floatCode v).instructions) : Forms s (inlining, .float v span) i
  /-- It stands for an operation on numbers. -/
  | template {x : List String × Expr} {n : Numeric} {op : Operation} {code : List Instruction}
      {i : Instruction} (h : n.template? op = some code) (mem : i ∈ code) : Forms s x i
  | receiver {x : List String × Expr} (h : s.hasReceiver = true) : Forms s x (.ldarg 0)
  | call {inlining : List String} {name : String} {nameSpan span : Span} {args : List Expr}
      {sig : Signature} (called : s.calledWith name nameSpan args = .ok sig) (pops : Nat) :
      Forms s (inlining, .call name nameSpan args span)
        (.call (s.registry.callTarget sig) pops (s.pushes sig.returnType))
  | operator {inlining : List String} {e : Expr} {op : Operation} {operands : List Expr}
      {values : List Code} {m : Method} (uses : e.Uses op operands)
      (applies : s.Applies inlining op operands values m) (pending : m.body = .pending) (pops : Nat) :
      Forms s (inlining, e) (.call (s.registry.callTarget m.sig) pops (s.pushes m.sig.returnType))

theorem Forms.puts {x : List String × Expr} (h : s.Forms x i) : s.Puts x i := by
  cases h with
  | plain h => exact .inner (Instruction.isInner_of_isPlain h)
  | literal mem =>
    refine .inner ?_
    unfold floatCode at mem
    split at mem <;> obtain rfl := List.mem_singleton.1 mem <;> rfl
  | template h mem => exact .inner (Numeric.inner_of_template? h i mem)
  | receiver h => exact .receiver h
  | call called pops => exact .call called pops
  | operator uses applies pending pops => exact .operator uses applies pending pops

/-- The method for an operator is one of a number, which is public and put in place, or it is compiled. -/
theorem Applies.template_or_pending (hs : s.registry.Installed s.builtins) {op : Operation}
    {operands : List Expr} {values : List Code} {m : Method}
    (h : s.Applies inlining op operands values m) :
    (∃ n code, Numeric.template? n op = some code ∧ m.body = .inline code ∧ m.sig.isPublic = true) ∨
      m.body = .pending := by
  obtain ⟨v, c, -, hc, found⟩ := h.found
  have bound : (s.registry.class? v.type.cls).bind (·.operator? op) = some m := by
    rw [hc, Option.bind_some, found]
  cases hn : s.builtins.numeric? v.type.cls with
  | some n =>
    obtain ⟨key, code, -, template, rfl⟩ := hs.numeric hn bound
    exact .inl ⟨n, code, template, rfl, rfl⟩
  | none => exact .inr (hs.pending hn bound)

theorem useOperator_of_pending {m : Method} (pending : m.body = .pending) : s.useOperator m =
    [.call (s.registry.callTarget m.sig) m.sig.params.length (s.pushes m.sig.returnType)] := by
  rw [useOperator, pending]

theorem forms_of_useOperator (hs : s.registry.Installed s.builtins) {e : Expr} {op : Operation}
    {operands : List Expr} {values : List Code} {m : Method} (uses : e.Uses op operands)
    (applies : s.Applies inlining op operands values m) (mem : i ∈ s.useOperator m) :
    s.Forms (inlining, e) i := by
  obtain ⟨n, code, template, inline, -⟩ | pending := applies.template_or_pending hs
  · rw [useOperator, inline] at mem
    exact .template template mem
  · rw [useOperator_of_pending pending] at mem
    obtain rfl := List.mem_singleton.1 mem
    exact .operator uses applies pending _

theorem plain_of_addressArgument {callee param : String} {type : TypeRef} {arg : Expr}
    {code : List Instruction} (h : s.addressArgument callee param type arg = .ok code)
    (mem : i ∈ code) : i.isPlain = true := by
  unfold addressArgument at h
  simp only at h
  split at h
  · cases h
  · split at h
    · cases h
      obtain rfl := List.mem_singleton.1 mem
      split <;> rfl
    · cases h

theorem forms_of_nameCode {x : List String × Expr} {name : String} {span : Span} {c : Code}
    (h : s.nameCode (fun _ => none) name span = .ok c) (mem : i ∈ c.instructions) : s.Forms x i := by
  unfold nameCode at h
  split at h
  · cases h
    unfold loadLocal at mem
    refine .plain ?_
    split at mem <;> simp only [List.mem_cons, List.not_mem_nil, or_false] at mem
    · rcases mem with rfl | rfl <;> rfl
    · subst mem
      rfl
  simp only at h
  split at h
  · cases h
  split at h
  · cases h
    obtain rfl := List.mem_singleton.1 mem
    exact .plain rfl
  split at h
  · next receiver =>
    cases h
    simp only [List.mem_cons, List.not_mem_nil, or_false] at mem
    rcases mem with rfl | rfl
    · exact .receiver receiver
    · exact .plain rfl
  · cases h

/-- An instruction among the arguments is that of an argument that is passed by its value, or it is a
plain one. -/
theorem mem_argsAmid {callee : String} {args : List Expr} {params : List (String × TypeRef)}
    {given : List Instruction} (h : s.argsAmid inlining callee args params = .ok given)
    (mem : i ∈ given) : i.isPlain = true ∨ ∃ arg param type c, (arg, param, type) ∈ args.zip params ∧
      type.isAddress = false ∧ s.codeAmid inlining arg = .ok c ∧ i ∈ c.instructions := by
  induction args generalizing params given with
  | nil =>
    rw [argsAmid, argsWith] at h
    · cases h
      cases mem
    · simp
  | cons arg args ih =>
    cases params with
    | nil =>
      rw [argsAmid, argsWith] at h
      · cases h
        cases mem
      · simp
    | cons p params =>
      obtain ⟨param, type⟩ := p
      simp only [argsAmid_cons, bind_eq_ok, Except.ok.injEq] at h
      obtain ⟨here, hh, rest, hr, rfl⟩ := h
      rcases List.mem_append.1 mem with mem | mem
      · cases address : type.isAddress with
        | true =>
          rw [argAmid, if_pos address] at hh
          exact .inl (plain_of_addressArgument hh mem)
        | false =>
          rw [argAmid, if_neg (by simp [address])] at hh
          obtain ⟨c, hc, -, -, rfl⟩ := passCode_eq_ok.1 hh
          exact .inr ⟨arg, param, type, c, List.mem_cons_self, address, hc, mem⟩
      · refine (ih hr mem).imp_right ?_
        rintro ⟨arg', param', type', c, given, later⟩
        exact ⟨arg', param', type', c, List.mem_cons_of_mem _ given, later⟩

def InPart (s : Scope) (x : List String × Expr) (i : Instruction) : Prop :=
  ∃ y c, s.Part x y ∧ s.codeAmid y.1 y.2 = .ok c ∧ i ∈ c.instructions

theorem part_of_uses {e o : Expr} {op : Operation} {operands : List Expr}
    (uses : e.Uses op operands) (mem : o ∈ operands) : s.Part (inlining, e) (inlining, o) := by
  cases uses with
  | binary =>
    simp only [List.mem_cons, List.not_mem_nil, or_false] at mem
    rcases mem with rfl | rfl
    · exact .left
    · exact .right
  | not =>
    obtain rfl := List.mem_singleton.1 mem
    exact .operand

theorem forms_or_inPart_of_uses (hs : s.registry.Installed s.builtins) {e : Expr} {op : Operation}
    {operands : List Expr} (uses : e.Uses op operands) {c : Code}
    (h : s.codeAmid inlining e = .ok c) (mem : i ∈ c.instructions) :
    s.Forms (inlining, e) i ∨ s.InPart (inlining, e) i := by
  obtain ⟨values, m, rest, applies, code, tail⟩ := exists_applies uses h
  rw [code, List.mem_append, List.mem_append] at mem
  rcases mem with (mem | mem) | mem
  · obtain ⟨v, hv, mem⟩ := List.mem_flatMap.1 mem
    obtain ⟨o, ho, gives⟩ := exists_of_mem_forall₂ applies.gives hv
    exact .inr ⟨_, v, part_of_uses uses ho, gives.1, mem⟩
  · exact .inl (forms_of_useOperator hs uses applies mem)
  · refine .inl (.plain ?_)
    rcases tail with rfl | rfl
    · cases mem
    · simp only [List.mem_cons, List.not_mem_nil, or_false] at mem
      rcases mem with rfl | rfl <;> rfl

/-- Each instruction of an expression's code is put there by the expression, or is in the code of a
part. -/
theorem forms_or_inPart (hs : s.registry.Installed s.builtins) {e : Expr} {c : Code}
    (h : s.codeAmid inlining e = .ok c) (mem : i ∈ c.instructions) :
    s.Forms (inlining, e) i ∨ s.InPart (inlining, e) i := by
  cases e with
  | int v span =>
    rw [codeAmid_eq, codeWith] at h
    cases h
    refine .inl (.plain ?_)
    unfold intCode at mem
    split at mem <;> obtain rfl := List.mem_singleton.1 mem <;> rfl
  | float v span =>
    rw [codeAmid_eq, codeWith] at h
    cases h
    exact .inl (.literal mem)
  | str v span =>
    rw [codeAmid_eq, codeWith] at h
    cases h
    obtain rfl := List.mem_singleton.1 mem
    exact .inl (.plain rfl)
  | ident name span =>
    by_cases bare : s.default? name = none ∨ name ∈ inlining
    · rw [codeAmid_ident_of_none bare] at h
      exact .inl (forms_of_nameCode h mem)
    · obtain ⟨stands, new⟩ := not_or.1 bare
      obtain ⟨default, stands⟩ := Option.ne_none_iff_exists'.1 stands
      obtain ⟨-, -, f, found, -, -⟩ := default?_eq_some_iff.1 stands
      rw [codeAmid_ident_of_default found stands new] at h
      obtain ⟨filled, hfill, rfl⟩ := map_eq_ok.1 h
      obtain ⟨value, hv, -, -, rfl⟩ := fill_eq_ok.1 hfill
      exact .inr ⟨_, value, .default stands new, hv, mem⟩
  | binary => exact forms_or_inPart_of_uses hs .binary h mem
  | unary op operand span =>
    by_cases negation : op = .not
    · subst negation
      exact forms_or_inPart_of_uses hs .not h mem
    · simp only [codeAmid_unary, unaryCode, bind_eq_ok, needValue_eq_ok] at h
      obtain ⟨o, ho, _, ⟨-, rfl⟩, h⟩ := h
      split at h <;> cases h
      rcases List.mem_append.1 mem with mem | mem
      · exact .inr ⟨_, o, .operand, ho, mem⟩
      · refine .inl (.plain ?_)
        split at mem
        · obtain rfl := List.mem_singleton.1 mem
          rfl
        · cases mem
  | call name nameSpan args span =>
    simp only [codeAmid_call, bind_eq_ok, Except.ok.injEq] at h
    obtain ⟨sig, called, given, hg, rfl⟩ := h
    rw [callCode, List.mem_append, List.mem_append, List.mem_singleton] at mem
    rcases mem with (mem | mem) | rfl
    · split at mem
      · next takes =>
        obtain rfl := List.mem_singleton.1 mem
        exact .inl (.receiver (receiver_of_callee (calledWith_eq_ok.1 called).1 takes))
      · cases mem
    · rcases mem_argsAmid hg mem with plain | ⟨arg, param, type, c, zipped, byValue, hc, mem⟩
      · exact .inl (.plain plain)
      · exact .inr ⟨_, c, .argument called zipped byValue, hc, mem⟩
    · exact .inl (.call called _)
  | cast operand target targetSpan span =>
    simp only [codeAmid_cast, castCode, bind_eq_ok, needValue_eq_ok] at h
    obtain ⟨o, ho, _, ⟨-, rfl⟩, type, -, h⟩ := h
    split at h <;> cases h
    rcases List.mem_append.1 mem with mem | mem
    · exact .inr ⟨_, o, .converted, ho, mem⟩
    · obtain rfl := List.mem_singleton.1 mem
      exact .inl (.plain rfl)

/-- Each instruction of an expression's code is put there by the expression or by something that is
compiled on the way. -/
theorem exists_forms (hs : s.registry.Installed s.builtins) {x : List String × Expr} {c : Code}
    (h : s.codeAmid x.1 x.2 = .ok c) (mem : i ∈ c.instructions) :
    ∃ y, s.Parts x y ∧ s.Forms y i := by
  induction x using (wellFounded_part s).induction generalizing c with
  | _ x ih =>
    rcases forms_or_inPart hs h mem with forms | ⟨y, c', part, hc, mem'⟩
    · exact ⟨x, .refl, forms⟩
    · obtain ⟨z, parts, forms⟩ := ih y part hc mem'
      exact ⟨z, .head part parts, forms⟩

theorem exists_puts (hs : s.registry.Installed s.builtins) {x : List String × Expr} {c : Code}
    (h : s.codeAmid x.1 x.2 = .ok c) (mem : i ∈ c.instructions) :
    ∃ y, s.Parts x y ∧ s.Puts y i := by
  obtain ⟨y, parts, forms⟩ := exists_forms hs h mem
  exact ⟨y, parts, forms.puts⟩

end Scope
end ClassAsm
