import ClassAsm.Proofs.Code.Defaults

/-! The parts of an expression. The code of an expression is put together from the codes of its
parts, where a default is part of the name that it stands for. So whatever is compiled on the way is
compiled to a stretch of the whole code, and with a value of its own. -/

namespace ClassAsm.Scope

variable {s : Scope} {inlining : List String}

/-! What is done with the codes of the parts. -/

def leftCode (s : Scope) (op : BinaryOp) (left : Expr) (span : Span) (code : Except Failure Code) :
    Except Failure (Code × Method) := do
  let l ← s.needValue left.span (← code)
  let m ← s.operator l.type op.operation span
  .ok (l, m)

/-- The code of an operation, given that of its right operand. -/
def binaryCode (s : Scope) (op : BinaryOp) (right : Expr) (x : Code × Method)
    (code : Except Failure Code) : Except Failure Code := do
  let (l, m) := x
  let r ← s.needValue right.span (← code)
  let wanted := ((m.sig.params[1]?).map (·.2)).getD l.type
  if r.type ≠ wanted then
    .error ((Fault.operandMismatch op.operation (s.showType l.type) (s.showType wanted)
      (s.showType r.type)).at right.span)
  else
    let negation := if op = .ne then [.ldcI4 0, .arith .ceq] else []
    .ok ⟨l.instructions ++ r.instructions ++ s.useOperator m ++ negation, m.sig.returnType⟩

def unaryCode (s : Scope) (op : UnaryOp) (operand : Expr) (span : Span)
    (code : Except Failure Code) : Except Failure Code := do
  let c ← s.needValue operand.span (← code)
  match op with
  | .not => do
    let m ← s.operator c.type .not span
    .ok ⟨c.instructions ++ s.useOperator m, m.sig.returnType⟩
  | sign =>
    if s.builtins.isNumeric c.type.cls then
      .ok ⟨c.instructions ++ if sign = .neg then [.neg] else [], c.type⟩
    else .error ((Fault.noNegation (s.showType c.type)).at span)

def castCode (s : Scope) (operand : Expr) (target : String) (targetSpan span : Span)
    (code : Except Failure Code) : Except Failure Code := do
  let c ← s.needValue operand.span (← code)
  let type ← s.resolveType target targetSpan
  match s.builtins.numeric? c.type.cls, s.builtins.numeric? type.cls, type.isAddress with
  | some _, some n, false => .ok ⟨c.instructions ++ [.conv n.kind], type⟩
  | _, _, _ => .error ((Fault.noCast (s.showType c.type) (s.showType type)).at span)

/-- The method that is called, if it takes so many arguments. -/
def calledWith (s : Scope) (name : String) (nameSpan : Span) (args : List Expr) :
    Except Failure Signature := do
  let sig ← s.callee name nameSpan
  if args.length ≠ sig.params.length then
    .error ((Fault.argumentCount name sig.params.length args.length).at nameSpan)
  else .ok sig

def callCode (s : Scope) (sig : Signature) (given : List Instruction) : Code :=
  let receiver := if sig.takesReceiver then [.ldarg 0] else []
  let pops := receiver.length + sig.params.length
  ⟨receiver ++ given ++ [.call (s.registry.callTarget sig) pops (s.pushes sig.returnType)],
    sig.returnType⟩

/-- An argument of a call inside of the defaults of the given fields. -/
def argAmid (s : Scope) (inlining : List String) (callee param : String) (type : TypeRef)
    (arg : Expr) : Except Failure (List Instruction) :=
  if type.isAddress then s.addressArgument callee param type arg
  else s.passCode callee param type arg (s.codeAmid inlining arg)

/-- The arguments of a call inside of the defaults of the given fields. -/
def argsAmid (s : Scope) (inlining : List String) (callee : String) (args : List Expr)
    (params : List (String × TypeRef)) : Except Failure (List Instruction) :=
  s.argsWith (s.standsAmid inlining) callee args params

theorem codeAmid_binary (op : BinaryOp) (left right : Expr) (span : Span) :
    s.codeAmid inlining (.binary op left right span) = (do
      let x ← s.leftCode op left span (s.codeAmid inlining left)
      s.binaryCode op right x (s.codeAmid inlining right)) := by
  simp only [codeAmid_eq, codeWith, leftCode, binaryCode, bind_assoc, ok_bind]

theorem codeAmid_unary (op : UnaryOp) (operand : Expr) (span : Span) :
    s.codeAmid inlining (.unary op operand span) =
      s.unaryCode op operand span (s.codeAmid inlining operand) := by
  rw [codeAmid_eq, codeAmid_eq inlining operand, codeWith]
  rfl

theorem codeAmid_cast (operand : Expr) (target : String) (targetSpan span : Span) :
    s.codeAmid inlining (.cast operand target targetSpan span) =
      s.castCode operand target targetSpan span (s.codeAmid inlining operand) := by
  rw [codeAmid_eq, codeAmid_eq inlining operand, codeWith]
  rfl

theorem codeAmid_call (name : String) (nameSpan : Span) (args : List Expr) (span : Span) :
    s.codeAmid inlining (.call name nameSpan args span) = (do
      let sig ← s.calledWith name nameSpan args
      let given ← s.argsAmid inlining name args sig.params
      .ok (s.callCode sig given)) := by
  simp only [codeAmid_eq, codeWith, calledWith, argsAmid, bind_assoc]
  congr 1
  funext sig
  split <;> rfl

theorem argsAmid_cons (callee param : String) (type : TypeRef) (arg : Expr) (args : List Expr)
    (params : List (String × TypeRef)) :
    s.argsAmid inlining callee (arg :: args) ((param, type) :: params) = (do
      let here ← s.argAmid inlining callee param type arg
      let rest ← s.argsAmid inlining callee args params
      .ok (here ++ rest)) := by
  rw [argsAmid, argsWith_cons, argCode, ← codeAmid_eq]
  rfl

/-! Names. -/

/-- The default of an instance field stands for a name that is no local, where there is no
receiver. -/
theorem default?_eq_some_iff {name : String} {default : Expr} :
    s.default? name = some default ↔ s.locals.find? name = none ∧ s.hasReceiver = false ∧
      ∃ f, s.field? name = some f ∧ f.isStatic = false ∧ f.default = some default := by
  cases hl : s.locals.find? name with
  | some _ => simp [default?, hl]
  | none =>
    cases hf : s.field? name with
    | none => simp [default?, hl, hf]
    | some f => cases hst : f.isStatic <;> cases hr : s.hasReceiver <;> simp [default?, hl, hf, hst, hr]

theorem codeAmid_ident_of_default {name : String} {f : Field} {default : Expr}
    (hf : s.field? name = some f) (hd : s.default? name = some default) (new : name ∉ inlining)
    (span : Span) : s.codeAmid inlining (.ident name span) =
      (s.fill f default (s.codeAmid (name :: inlining) default)).map (⟨·, f.type⟩) := by
  obtain ⟨hl, hr, g, hg, hst, stored⟩ := default?_eq_some_iff.1 hd
  obtain rfl : f = g := Option.some.inj (hf.symm.trans hg)
  obtain rfl := name_of_field? hf
  simp [codeAmid_eq inlining, codeWith, nameCode, hl, hf, hst, hr, standsAmid, new, stored]

theorem codeAmid_ident_of_none {name : String} (h : s.default? name = none ∨ name ∈ inlining)
    (span : Span) : s.codeAmid inlining (.ident name span) = s.nameCode (fun _ => none) name span := by
  rw [codeAmid_eq, codeWith]
  unfold nameCode
  split
  · rfl
  next hl =>
  cases hf : s.field? name with
  | none => rfl
  | some f =>
    obtain rfl := name_of_field? hf
    dsimp only
    split
    · rfl
    next hst =>
    split
    · rfl
    next hr =>
    have none' : s.standsAmid inlining f = none := by
      rcases h with h | h
      · have : f.default = none := by
          by_contra stored
          obtain ⟨v, hv⟩ := Option.ne_none_iff_exists'.1 stored
          have := default?_eq_some_iff.2
            ⟨hl, by simpa using hr, f, hf, by simpa using hst, hv⟩
          rw [h] at this
          cases this
        simp [standsAmid, this]
      · simp [standsAmid, h]
    rw [none']

/-! Parts. -/

/-- Compiling an expression inside of some defaults goes on to one of its parts. An argument that is
passed by its address is not compiled. -/
inductive Part (s : Scope) : List String × Expr → List String × Expr → Prop where
  | left {inlining : List String} {op : BinaryOp} {left right : Expr} {span : Span} :
      Part s (inlining, .binary op left right span) (inlining, left)
  | right {inlining : List String} {op : BinaryOp} {left right : Expr} {span : Span} :
      Part s (inlining, .binary op left right span) (inlining, right)
  | operand {inlining : List String} {op : UnaryOp} {operand : Expr} {span : Span} :
      Part s (inlining, .unary op operand span) (inlining, operand)
  | converted {inlining : List String} {operand : Expr} {target : String}
      {targetSpan span : Span} :
      Part s (inlining, .cast operand target targetSpan span) (inlining, operand)
  | argument {inlining : List String} {name param : String} {nameSpan span : Span}
      {args : List Expr} {sig : Signature} {type : TypeRef} {arg : Expr}
      (called : s.calledWith name nameSpan args = .ok sig)
      (given : (arg, param, type) ∈ args.zip sig.params) (byValue : type.isAddress = false) :
      Part s (inlining, .call name nameSpan args span) (inlining, arg)
  | default {inlining : List String} {name : String} {span : Span} {default : Expr}
      (stands : s.default? name = some default) (new : name ∉ inlining) :
      Part s (inlining, .ident name span) (name :: inlining, default)

abbrev Parts (s : Scope) : List String × Expr → List String × Expr → Prop :=
  Relation.ReflTransGen s.Part

def Gives (s : Scope) (inlining : List String) (e : Expr) (c : Code) : Prop :=
  s.codeAmid inlining e = .ok c ∧ s.isVoid c.type = false

theorem calledWith_eq_ok {name : String} {nameSpan : Span} {args : List Expr} {sig : Signature} :
    s.calledWith name nameSpan args = .ok sig ↔
      s.callee name nameSpan = .ok sig ∧ args.length = sig.params.length := by
  simp only [calledWith, bind_eq_ok]
  constructor
  · rintro ⟨sig', called, h⟩
    split at h
    · cases h
    · next same =>
      cases h
      exact ⟨called, not_not.1 same⟩
  · rintro ⟨called, same⟩
    exact ⟨sig, called, if_neg (not_not.2 same)⟩

/-- An operation on two values: the method for the left one takes the right one. -/
structure Combines (s : Scope) (inlining : List String) (op : BinaryOp) (left right : Expr)
    (c : Code) : Prop where
  exists_operands : ∃ l r m, s.Gives inlining left l ∧ s.Gives inlining right r ∧
    (s.registry.class? l.type.cls).bind (·.operator? op.operation) = some m ∧
    m.sig.params.length = 2 ∧ (∀ p, m.sig.params[1]? = some p → r.type = p.2) ∧
    c.type = m.sig.returnType ∧ c.instructions = l.instructions ++ r.instructions ++
      s.useOperator m ++ if op = .ne then [.ldcI4 0, .arith .ceq] else []

theorem combines_of_codeAmid {op : BinaryOp} {left right : Expr} {span : Span} {c : Code}
    (h : s.codeAmid inlining (.binary op left right span) = .ok c) :
    s.Combines inlining op left right c := by
  simp only [codeAmid_binary, leftCode, binaryCode, bind_eq_ok, needValue_eq_ok] at h
  obtain ⟨_, ⟨l, hl, _, ⟨hlv, rfl⟩, m, hm, h'⟩, r, hr, _, ⟨hrv, rfl⟩, h⟩ := h
  cases h'
  split at h
  · cases h
  next type =>
  obtain rfl := Except.ok.inj h
  obtain ⟨found, arity⟩ := operator_eq_ok.1 hm
  have two : op.operation.arity = 2 := by cases op <;> rfl
  refine ⟨l, r, m, ⟨hl, hlv⟩, ⟨hr, hrv⟩, found, arity.trans two, fun p hp => ?_, rfl, rfl⟩
  simpa [hp] using not_not.1 type

theorem gives_argument {callee param : String} {type : TypeRef} {arg : Expr} {args : List Expr}
    {params : List (String × TypeRef)} {given : List Instruction}
    (h : s.argsAmid inlining callee args params = .ok given)
    (mem : (arg, param, type) ∈ args.zip params) (byValue : type.isAddress = false) :
    ∃ c, s.Gives inlining arg c ∧ c.instructions <:+: given := by
  induction args generalizing params given with
  | nil => cases mem
  | cons a args ih =>
    obtain _ | ⟨⟨param', type'⟩, params⟩ := params
    · cases mem
    simp only [argsAmid_cons, bind_eq_ok, Except.ok.injEq] at h
    obtain ⟨here, hh, rest, hr, rfl⟩ := h
    rw [List.zip_cons_cons, List.mem_cons] at mem
    rcases mem with first | later
    · cases first
      rw [argAmid, if_neg (by simp [byValue])] at hh
      obtain ⟨c, hc, hv, -, rfl⟩ := passCode_eq_ok.1 hh
      exact ⟨c, ⟨hc, hv⟩, (List.prefix_append _ _).isInfix⟩
    · obtain ⟨c, gives, within⟩ := ih hr later
      exact ⟨c, gives, within.trans (List.suffix_append _ _).isInfix⟩

theorem Part.gives {x y : List String × Expr} (h : s.Part x y) {c : Code}
    (hc : s.codeAmid x.1 x.2 = .ok c) :
    ∃ c', s.Gives y.1 y.2 c' ∧ c'.instructions <:+: c.instructions := by
  cases h with
  | left =>
    obtain ⟨⟨l, r, m, hl, -, -, -, -, -, code⟩⟩ := combines_of_codeAmid hc
    refine ⟨l, hl, ?_⟩
    rw [code, List.append_assoc, List.append_assoc]
    exact (List.prefix_append _ _).isInfix
  | right =>
    obtain ⟨⟨l, r, m, -, hr, -, -, -, -, code⟩⟩ := combines_of_codeAmid hc
    refine ⟨r, hr, ?_⟩
    rw [code, List.append_assoc]
    exact List.infix_append _ _ _
  | operand =>
    simp only [codeAmid_unary, unaryCode, bind_eq_ok, needValue_eq_ok] at hc
    obtain ⟨o, ho, _, ⟨hv, rfl⟩, hc⟩ := hc
    refine ⟨o, ⟨ho, hv⟩, ?_⟩
    split at hc
    · obtain ⟨m, -, hc⟩ := bind_eq_ok.1 hc
      cases hc
      exact (List.prefix_append _ _).isInfix
    · split at hc <;> cases hc
      exact (List.prefix_append _ _).isInfix
  | converted =>
    simp only [codeAmid_cast, castCode, bind_eq_ok, needValue_eq_ok] at hc
    obtain ⟨o, ho, _, ⟨hv, rfl⟩, type, -, hc⟩ := hc
    refine ⟨o, ⟨ho, hv⟩, ?_⟩
    split at hc <;> cases hc
    exact (List.prefix_append _ _).isInfix
  | argument called given byValue =>
    simp only [codeAmid_call, bind_eq_ok, Except.ok.injEq] at hc
    obtain ⟨sig, called', code, hg, rfl⟩ := hc
    obtain rfl := Except.ok.inj (called.symm.trans called')
    obtain ⟨c, gives, within⟩ := gives_argument hg given byValue
    exact ⟨c, gives, within.trans (List.infix_append _ _ _)⟩
  | default stands new =>
    obtain ⟨-, -, f, hf, -, -⟩ := default?_eq_some_iff.1 stands
    rw [codeAmid_ident_of_default hf stands new] at hc
    obtain ⟨filled, hfill, rfl⟩ := map_eq_ok.1 hc
    obtain ⟨c, code, hv, -, rfl⟩ := fill_eq_ok.1 hfill
    exact ⟨c, ⟨code, hv⟩, List.infix_rfl⟩

theorem Parts.code {x y : List String × Expr} (h : s.Parts x y) {c : Code}
    (hc : s.codeAmid x.1 x.2 = .ok c) :
    ∃ c', s.codeAmid y.1 y.2 = .ok c' ∧ c'.instructions <:+: c.instructions := by
  induction h with
  | refl => exact ⟨c, hc, List.infix_rfl⟩
  | tail _ part ih =>
    obtain ⟨c₁, h₁, within⟩ := ih
    obtain ⟨c₂, h₂, within'⟩ := part.gives h₁
    exact ⟨c₂, h₂.1, within'.trans within⟩

end ClassAsm.Scope
