import ClassAsm.Proofs.Code.Parts
import ClassAsm.Proofs.Code.Reads

/-! The identifiers in an expression. Each of them is compiled for itself: to its value, or to an
address where that is passed. So its code is a stretch of the whole code. -/

namespace ClassAsm

mutual

/-- The names in an expression that stand for values, with their places in the text. -/
def Expr.idents : Expr → List (String × Span)
  | .int .. | .float .. | .str .. => []
  | .ident name span => [(name, span)]
  | .binary _ left right _ => left.idents ++ right.idents
  | .unary _ operand _ => operand.idents
  | .call _ _ args _ => Expr.identsOfAll args
  | .cast operand _ _ _ => operand.idents

def Expr.identsOfAll : List Expr → List (String × Span)
  | [] => []
  | e :: es => e.idents ++ Expr.identsOfAll es

end

mutual

theorem Expr.fst_idents : ∀ e : Expr, e.idents.map Prod.fst = e.names
  | .int .. | .float .. | .str .. | .ident .. => rfl
  | .binary _ left right _ => by
    rw [Expr.idents, Expr.names, List.map_append, left.fst_idents, right.fst_idents]
  | .unary _ operand _ => operand.fst_idents
  | .call _ _ args _ => Expr.fst_identsOfAll args
  | .cast operand _ _ _ => operand.fst_idents

theorem Expr.fst_identsOfAll : ∀ es : List Expr,
    (Expr.identsOfAll es).map Prod.fst = Expr.namesOfAll es
  | [] => rfl
  | e :: es => by
    rw [Expr.identsOfAll, Expr.namesOfAll, List.map_append, e.fst_idents, Expr.fst_identsOfAll es]

end

namespace Scope

variable {s : Scope} {inlining : List String} {name : String} {span : Span}

/-- What an identifier is compiled to: its value, or an address that is passed. -/
inductive Takes (s : Scope) (name : String) (span : Span) : List Instruction → Prop where
  | value {c : Code} (h : s.code (.ident name span) = .ok c) : Takes s name span c.instructions
  | address {callee param : String} {type : TypeRef} {code : List Instruction}
      (h : s.addressArgument callee param type (.ident name span) = .ok code) :
      Takes s name span code

/-- The address of the identifier is passed in the code. -/
def Passes (s : Scope) (name : String) (span : Span) (code : List Instruction) : Prop :=
  ∃ callee param type given,
    s.addressArgument callee param type (.ident name span) = .ok given ∧ given <:+: code

/-- The identifier is compiled as a part of the expression, or its address is passed in the code. -/
def Meets (s : Scope) (inlining : List String) (name : String) (span : Span) (e : Expr)
    (code : List Instruction) : Prop :=
  s.Parts (inlining, e) (inlining, .ident name span) ∨ s.Passes name span code

theorem Passes.within {code code' : List Instruction} (h : s.Passes name span code)
    (within : code <:+: code') : s.Passes name span code' := by
  obtain ⟨callee, param, type, given, passed, stretch⟩ := h
  exact ⟨callee, param, type, given, passed, stretch.trans within⟩

theorem Meets.of_part {e part : Expr} {c : Code} (h : s.Part (inlining, e) (inlining, part))
    (accepted : s.codeAmid inlining e = .ok c)
    (meets : ∀ {c' : Code}, s.codeAmid inlining part = .ok c' →
      s.Meets inlining name span part c'.instructions) :
    s.Meets inlining name span e c.instructions := by
  obtain ⟨c', gives, within⟩ := h.gives accepted
  exact (meets gives.1).imp (.head h) (·.within within)

theorem eq_ident_of_addressArgument {callee param : String} {type : TypeRef} {arg : Expr}
    {code : List Instruction} (h : s.addressArgument callee param type arg = .ok code)
    (mem : (name, span) ∈ arg.idents) : arg = .ident name span := by
  cases arg with
  | ident name' span' =>
    obtain ⟨rfl, rfl⟩ : name = name' ∧ span = span' := by simpa [Expr.idents] using mem
    rfl
  | _ => simp [addressArgument] at h

theorem Passes.ne_none {code : List Instruction} (h : s.Passes name span code) :
    s.locals.find? name ≠ none := by
  obtain ⟨callee, param, type, given, passed, -⟩ := h
  intro none'
  simp [addressArgument, none'] at passed

mutual

theorem meets_of_mem_idents : ∀ {e : Expr} {c : Code}, s.codeAmid inlining e = .ok c →
    (name, span) ∈ e.idents → s.Meets inlining name span e c.instructions
  | .int .., _, _, mem | .float .., _, _, mem | .str .., _, _, mem => by simp [Expr.idents] at mem
  | .ident name' span', _, _, mem => by
    obtain ⟨rfl, rfl⟩ : name = name' ∧ span = span' := by simpa [Expr.idents] using mem
    exact .inl .refl
  | .binary op left right whole, _, accepted, mem => by
    rcases List.mem_append.1 mem with mem | mem
    · exact .of_part .left accepted (meets_of_mem_idents · mem)
    · exact .of_part .right accepted (meets_of_mem_idents · mem)
  | .unary op operand whole, _, accepted, mem =>
    .of_part .operand accepted (meets_of_mem_idents (e := operand) · mem)
  | .cast operand target targetSpan whole, _, accepted, mem =>
    .of_part .converted accepted (meets_of_mem_idents (e := operand) · mem)
  | .call callee nameSpan args whole, _, accepted, mem => by
    simp only [codeAmid_call, bind_eq_ok, Except.ok.injEq] at accepted
    obtain ⟨sig, called, given, passed, rfl⟩ := accepted
    rcases meets_in_args passed (calledWith_eq_ok.1 called).2 mem with
      ⟨arg, param, type, zipped, byValue, parts⟩ | address
    · exact .inl (.head (.argument called zipped byValue) parts)
    · exact .inr (address.within (List.infix_append _ _ _))

theorem meets_in_args {callee : String} : ∀ {args : List Expr} {params : List (String × TypeRef)}
    {given : List Instruction}, s.argsAmid inlining callee args params = .ok given →
    args.length = params.length → (name, span) ∈ Expr.identsOfAll args →
    (∃ arg param type, (arg, param, type) ∈ args.zip params ∧ type.isAddress = false ∧
      s.Parts (inlining, arg) (inlining, .ident name span)) ∨ s.Passes name span given
  | [], _, _, _, _, mem => by simp [Expr.identsOfAll] at mem
  | _ :: _, [], _, _, short, _ => by cases short
  | arg :: args, (param, type) :: params, _, accepted, long, mem => by
    simp only [argsAmid_cons, bind_eq_ok, Except.ok.injEq] at accepted
    obtain ⟨here, passed, rest, others, rfl⟩ := accepted
    rcases List.mem_append.1 mem with mem | mem
    · cases way : type.isAddress with
      | true =>
        rw [argAmid, if_pos way] at passed
        obtain rfl := eq_ident_of_addressArgument passed mem
        exact .inr ⟨callee, param, type, here, passed, (List.prefix_append _ _).isInfix⟩
      | false =>
        rw [argAmid, if_neg (by simp [way])] at passed
        obtain ⟨c, hc, -, -, rfl⟩ := passCode_eq_ok.1 passed
        refine (meets_of_mem_idents hc mem).imp (fun parts => ?_) fun address => ?_
        · exact ⟨arg, param, type, List.mem_cons_self, way, parts⟩
        · exact address.within (List.prefix_append _ _).isInfix
    · refine (meets_in_args others (Nat.succ.inj long) mem).imp ?_ fun address => ?_
      · rintro ⟨arg', param', type', zipped, byValue, parts⟩
        exact ⟨arg', param', type', List.mem_cons_of_mem _ zipped, byValue, parts⟩
      · exact address.within (List.suffix_append _ _).isInfix

end

theorem takes_of_mem_idents {e : Expr} {c : Code} (h : s.code e = .ok c)
    (mem : (name, span) ∈ e.idents) :
    ∃ code, s.Takes name span code ∧ code <:+: c.instructions := by
  rw [code_eq_codeAmid] at h
  rcases meets_of_mem_idents h mem with parts | ⟨callee, param, type, given, passed, within⟩
  · obtain ⟨c', hc, within⟩ := parts.code h
    exact ⟨_, .value (by rwa [code_eq_codeAmid]), within⟩
  · exact ⟨given, .address passed, within⟩

/-- The code of an identifier uses the slots of locals only, and that of the name itself if it is
one. -/
theorem Takes.slotted (hs : s.registry.Installed s.builtins) {code : List Instruction}
    (h : s.Takes name span code) :
    ∃ names, Slotted s.locals.toList names code ∧ (s.isLocal name = true → names = [name]) := by
  have alone (f : String → List String) : (Expr.ident name span).names.flatMap f = f name := by
    rw [Expr.names, List.flatMap_singleton]
  cases h with
  | value h =>
    refine ⟨_, (code_loads hs h).slots, fun isLocal => ?_⟩
    rw [reads, alone, readsInside_of_isLocal _ isLocal]
  | address h =>
    have itself : ∀ n, s.isLocal n = true → [n] = [n] := fun _ _ => rfl
    exact ⟨_, (addressArgument_loads itself h).slots, fun _ => alone fun n => [n]⟩

end Scope
end ClassAsm
