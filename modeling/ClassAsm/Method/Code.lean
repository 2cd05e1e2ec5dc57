import ClassAsm.Method.Locals
import ClassAsm.Registry.Naming
import ClassAsm.Primitive
import ClassAsm.Failure

/-! The instructions of an expression. They depend on the declarations, on the method the
expression stands in and on its locals, and on nothing that has been emitted before. Where a method
has no receiver, the default of an instance field stands for its value; a default that leads back
to its own field does not. -/

namespace ClassAsm

/-- What names mean where an expression stands. -/
structure Scope where
  registry : Registry
  builtins : Builtins
  /-- The class whose members are visible. -/
  owner : ClassId
  /-- The index of its namespace. -/
  nspace : Nat
  hasReceiver : Bool
  locals : Locals

/-- Instructions that leave one value, or none if the type is void. -/
structure Code where
  instructions : List Instruction
  type : TypeRef
deriving Repr

namespace Scope

def field? (s : Scope) (name : String) : Option Field :=
  (s.registry.class? s.owner).bind (·.field? name)

def method? (s : Scope) (name : String) : Option Method :=
  (s.registry.class? s.owner).bind (·.method? name)

def showType (s : Scope) (t : TypeRef) : String := s.registry.showType t

def isVoid (s : Scope) (t : TypeRef) : Bool := t.cls == s.builtins.void

/-- Operands that a result of the type leaves on the stack. -/
def pushes (s : Scope) (t : TypeRef) : Nat := if s.isVoid t then 0 else 1

def resolveType (s : Scope) (name : String) (span : Span) : Except Failure TypeRef :=
  match s.registry.resolve? (TypeName.parse name) s.nspace with
  | some t => .ok t
  | none => .error ((Fault.unknownType name).at span)

def needValue (s : Scope) (span : Span) (c : Code) : Except Failure Code :=
  if s.isVoid c.type then .error (Fault.noValue.at span) else .ok c

/-- Loads the value of a local; one that holds an address is followed. -/
def loadLocal (s : Scope) (slot : Nat) (type : TypeRef) : Code :=
  if type.isAddress then
    ⟨[.ldloc slot, .ldind (s.builtins.elementKind type.cls)], type.valueType⟩
  else ⟨[.ldloc slot], type⟩

/-- The method for an operation on the given operand, with the number of parameters that the
operation needs. -/
def operator (s : Scope) (operand : TypeRef) (op : Operation) (span : Span) :
    Except Failure Method := do
  let owner := s.registry.className operand.cls
  match (s.registry.class? operand.cls).bind (·.operator? op) with
  | none => .error ((Fault.noOperation owner op).at span)
  | some m =>
    if m.sig.params.length = op.arity then .ok m
    else .error ((Fault.operatorArity m.sig.name owner op.arity).at span)

def useOperator (s : Scope) (m : Method) : List Instruction :=
  match m.body with
  | .inline code => code
  | _ => [.call (s.registry.callTarget m.sig) m.sig.params.length (s.pushes m.sig.returnType)]

def addressArgument (s : Scope) (callee param : String) (type : TypeRef) (arg : Expr) :
    Except Failure (List Instruction) :=
  let wanted := s.showType type
  let found := match arg with
    | .ident name _ => s.locals.find? name
    | _ => none
  match found with
  | none => .error ((Fault.argumentNotLocal param callee wanted).at arg.span)
  | some (slot, got) =>
    if got.valueType = type.valueType then
      .ok [if got.isAddress then .ldloc slot else .ldloca slot]
    else .error ((Fault.argumentMismatch param callee wanted (s.showType got)).at arg.span)

/-- The code of an integer: 32 bits where it fits, else 64. -/
def intCode (s : Scope) (v : Nat) : Code :=
  if v < pow2 31 then ⟨[.ldcI4 (.ofNat v)], { cls := s.builtins.i32 }⟩
  else ⟨[.ldcI8 (.ofNat v)], { cls := s.builtins.i64 }⟩

/-- The code of a float: single precision unless it is too large for it. -/
def floatCode (s : Scope) (v : Binary64) : Code :=
  if v.exceedsSingle then ⟨[.ldcR8 v], { cls := s.builtins.f64 }⟩
  else ⟨[.ldcR4 v.narrow], { cls := s.builtins.f32 }⟩

/-- What stands for an instance field where there is no receiver. -/
abbrev StandIn := Field → Option (Except Failure (List Instruction))

def nameCode (s : Scope) (standIn : StandIn) (name : String) (span : Span) :
    Except Failure Code :=
  match s.locals.find? name with
  | some (slot, type) => .ok (s.loadLocal slot type)
  | none =>
    let unknown := .error ((Fault.unknownVariable name).at span)
    match s.field? name with
    | none => unknown
    | some f =>
      let target := s.registry.fieldTarget s.owner f
      if f.isStatic then .ok ⟨[.ldsfld target], f.type⟩
      else if s.hasReceiver then .ok ⟨[.ldarg 0, .ldfld target], f.type⟩
      else match standIn f with
        | none => unknown
        | some code => code.map fun instructions => ⟨instructions, f.type⟩

/-- The method that a call names, if it can be called here. -/
def callee (s : Scope) (name : String) (span : Span) : Except Failure Signature :=
  match s.method? name with
  | some m =>
    if m.sig.takesReceiver && !s.hasReceiver then .error ((Fault.unknownMethod name).at span)
    else .ok m.sig
  | none => .error ((Fault.unknownMethod name).at span)

mutual

def codeWith (s : Scope) (standIn : StandIn) : Expr → Except Failure Code
  | .int v _ => .ok (s.intCode v)
  | .float v _ => .ok (s.floatCode v)
  | .str v _ => .ok ⟨[.ldstr v], { cls := s.builtins.string }⟩
  | .ident name span => s.nameCode standIn name span
  | .binary op left right span => do
    let l ← s.needValue left.span (← s.codeWith standIn left)
    let m ← s.operator l.type op.operation span
    let r ← s.needValue right.span (← s.codeWith standIn right)
    let wanted := ((m.sig.params[1]?).map (·.2)).getD l.type
    if r.type ≠ wanted then
      .error ((Fault.operandMismatch op.operation (s.showType l.type) (s.showType wanted)
        (s.showType r.type)).at right.span)
    else
      let negation := if op = .ne then [.ldcI4 0, .arith .ceq] else []
      .ok ⟨l.instructions ++ r.instructions ++ s.useOperator m ++ negation, m.sig.returnType⟩
  | .unary op operand span => do
    let c ← s.needValue operand.span (← s.codeWith standIn operand)
    match op with
    | .not => do
      let m ← s.operator c.type .not span
      .ok ⟨c.instructions ++ s.useOperator m, m.sig.returnType⟩
    | sign =>
      if s.builtins.isNumeric c.type.cls then
        .ok ⟨c.instructions ++ if sign = .neg then [.neg] else [], c.type⟩
      else .error ((Fault.noNegation (s.showType c.type)).at span)
  | .call name nameSpan args _ => do
    let sig ← s.callee name nameSpan
    if args.length ≠ sig.params.length then
      .error ((Fault.argumentCount name sig.params.length args.length).at nameSpan)
    else
      let receiver := if sig.takesReceiver then [.ldarg 0] else []
      let given ← s.argsWith standIn name args sig.params
      let pops := receiver.length + sig.params.length
      let call := .call (s.registry.callTarget sig) pops (s.pushes sig.returnType)
      .ok ⟨receiver ++ given ++ [call], sig.returnType⟩
  | .cast operand target targetSpan span => do
    let c ← s.needValue operand.span (← s.codeWith standIn operand)
    let type ← s.resolveType target targetSpan
    match s.builtins.numeric? c.type.cls, s.builtins.numeric? type.cls, type.isAddress with
    | some _, some n, false => .ok ⟨c.instructions ++ [.conv n.kind], type⟩
    | _, _, _ => .error ((Fault.noCast (s.showType c.type) (s.showType type)).at span)

def argsWith (s : Scope) (standIn : StandIn) (name : String) :
    List Expr → List (String × TypeRef) → Except Failure (List Instruction)
  | arg :: args, (param, type) :: params => do
    let here ←
      if type.isAddress then s.addressArgument name param type arg
      else do
        let c ← s.needValue arg.span (← s.codeWith standIn arg)
        if c.type = type then .ok c.instructions
        else .error ((Fault.argumentMismatch param name (s.showType type)
          (s.showType c.type)).at arg.span)
    let rest ← s.argsWith standIn name args params
    .ok (here ++ rest)
  | _, _ => .ok []

end

/-- The code of an expression inside the defaults of the fields in `inlining`. The number bounds
how many more defaults can be nested. -/
def codeInside (s : Scope) : Nat → List String → Expr → Except Failure Code
  | 0, _ => s.codeWith fun _ => none
  | n + 1, inlining => s.codeWith fun f =>
    if f.name ∈ inlining then none
    else f.default.map fun default => do
      let c ← s.needValue default.span (← s.codeInside n (f.name :: inlining) default)
      if c.type = f.type then .ok c.instructions
      else .error ((Fault.defaultMismatch f.name (s.showType f.type)
        (s.showType c.type)).at default.span)

/-- No more defaults can be nested than the class has fields. -/
def code (s : Scope) (e : Expr) : Except Failure Code :=
  let fields := ((s.registry.class? s.owner).elim [] (·.fields)).length
  s.codeInside fields [] e

def valueCode (s : Scope) (e : Expr) : Except Failure Code := do
  s.needValue e.span (← s.code e)

end Scope
end ClassAsm
