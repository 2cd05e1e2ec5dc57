import ClassAsm.Tree
import ClassAsm.Token

/-! Where a reader of tokens stands in the grammar, with everything it has read so far. A place is
a stack that is never ill-formed: open brackets lie inside an expression, the expression inside a
statement, the statement inside open blocks, the blocks inside a method and the method inside a
class. Lists of parts are kept latest first. -/

namespace ClassAsm.Grammar

structure OpenClass where
  start : Span
  isPublic : Bool
  name : String
  nameSpan : Span
  fields : List FieldDecl
  methods : List MethodDecl
deriving Repr

namespace OpenClass

def addField (c : OpenClass) (f : FieldDecl) : OpenClass := { c with fields := f :: c.fields }

def addMethod (c : OpenClass) (m : MethodDecl) : OpenClass := { c with methods := m :: c.methods }

def close (c : OpenClass) (last : Span) : ClassDecl :=
  ⟨c.name, c.nameSpan, c.isPublic, c.fields.reverse, c.methods.reverse, c.start.join last⟩

end OpenClass

structure OpenField where
  start : Span
  isPublic : Bool
  isStatic : Bool
  name : String
  typeName : String
  typeSpan : Span
deriving Repr

def OpenField.close (f : OpenField) (default : Option Expr) : FieldDecl :=
  let last := match default with
    | some e => e.span
    | none => f.typeSpan
  ⟨f.name, f.typeName, f.isPublic, f.isStatic, default, f.start.join last⟩

structure OpenMethod where
  start : Span
  isPublic : Bool
  kind : MethodKind
  returnType : String
  returnTypeSpan : Span
  name : String
  nameSpan : Span
  params : List Param
deriving Repr

def OpenMethod.close (m : OpenMethod) (body : Block) : MethodDecl :=
  ⟨m.name, m.nameSpan, m.returnType, m.returnTypeSpan, m.params.reverse, body, m.isPublic, m.kind,
   m.start.join body.span⟩

structure Chain where
  start : Span
  first : Arm
  rest : List Arm
deriving Repr

namespace Chain

/-- One more arm; the keyword of the first arm opens the statement. -/
def extend (chain : Option Chain) (keyword : Span) (arm : Arm) : Chain :=
  match chain with
  | none => ⟨keyword, arm, []⟩
  | some c => { c with rest := arm :: c.rest }

def close (c : Chain) (otherwise : Option Block) : Stmt :=
  let last := match otherwise with
    | some b => b.span
    | none => (c.rest.headD c.first).span
  .cond c.first c.rest.reverse otherwise (c.start.join last)

end Chain

/-- A block being read. It starts with its first token, which may be the closing one. -/
structure OpenBlock where
  start : Option Span
  stmts : List Stmt
deriving Repr

/-- What a nested block is the body of. -/
inductive Owner where
  | loop (start : Span) (condition : Expr)
  | arm (chain : Option Chain) (keyword : Span) (condition : Expr)
  | otherwise (chain : Chain)
deriving Repr

/-- A method body being read: the innermost block, and each block around it with the owner of the
one inside. -/
structure Body where
  cls : OpenClass
  method : OpenMethod
  block : OpenBlock
  outer : List (Owner × OpenBlock)
deriving Repr

namespace Body

/-- Sets the start of the innermost block if it has none yet. -/
def started (b : Body) (s : Span) : Body :=
  { b with block := { b.block with start := some (b.block.start.getD s) } }

def push (b : Body) (s : Stmt) : Body :=
  { b with block := { b.block with stmts := s :: b.block.stmts } }

def enter (b : Body) (owner : Owner) : Body :=
  { b with block := ⟨none, []⟩, outer := (owner, b.block) :: b.outer }

end Body

inductive Purpose where
  | fieldDefault (cls : OpenClass) (field : OpenField)
  | statement (b : Body)
  | value (b : Body) (name : String) (nameSpan : Span) (typeName : Option String)
  | returned (b : Body) (start : Span)
  | loop (b : Body) (start : Span)
  | arm (b : Body) (chain : Option Chain) (keyword : Span)
deriving Repr

/-- An operator that waits for its operand. -/
inductive Pending where
  | unary (op : UnaryOp) (start : Span)
  | binary (op : BinaryOp) (left : Expr)
deriving Repr

/-- An open parenthesis: plain, or that of a call with the arguments before the current one. -/
inductive Bracket where
  | paren (start : Span)
  | call (callee : String) (calleeSpan : Span) (args : List Expr)
deriving Repr

/-- The surroundings of the operand being read: the operators that wait for it, and each open
parenthesis with the operators that wait for it in turn. -/
structure Surroundings where
  purpose : Purpose
  pending : List Pending
  outer : List (Bracket × List Pending)
deriving Repr

namespace Surroundings

def of (purpose : Purpose) : Surroundings := ⟨purpose, [], []⟩

def wait (s : Surroundings) (p : Pending) : Surroundings := { s with pending := p :: s.pending }

def bracket (s : Surroundings) (b : Bracket) : Surroundings :=
  { s with pending := [], outer := (b, s.pending) :: s.outer }

end Surroundings

/-- Named for what comes next. -/
inductive Place where
  | top
  | namespaceName (start : Span)
  | classKeyword (start : Span) (isPublic : Bool)
  | className (start : Span) (isPublic : Option Bool)
  | classColon (start : Span) (isPublic : Bool) (name : String) (nameSpan : Span)
  | member (cls : OpenClass)
  | methodVisibility (cls : OpenClass) (start : Span)
  | methodModifier (cls : OpenClass) (start : Span) (isPublic : Bool)
  | returnType (cls : OpenClass) (start : Span) (isPublic : Bool) (kind : MethodKind)
  | methodName (cls : OpenClass) (start : Span) (isPublic : Bool) (kind : MethodKind)
      (returnType : String) (returnTypeSpan : Span)
  | methodParams (cls : OpenClass) (m : OpenMethod)
  | firstParam (cls : OpenClass) (m : OpenMethod)
  | nextParam (cls : OpenClass) (m : OpenMethod)
  | paramColon (cls : OpenClass) (m : OpenMethod) (name : String) (nameSpan : Span)
  | paramType (cls : OpenClass) (m : OpenMethod) (name : String) (nameSpan : Span)
  | paramEnd (cls : OpenClass) (m : OpenMethod)
  | methodColon (cls : OpenClass) (m : OpenMethod)
  | fieldVisibility (cls : OpenClass) (start : Span)
  | fieldModifier (cls : OpenClass) (start : Span) (isPublic : Bool)
  | fieldName (cls : OpenClass) (start : Span) (isPublic : Bool)
  | fieldType (cls : OpenClass) (start : Span) (isPublic isStatic : Bool) (name : String)
  | fieldDefault (cls : OpenClass) (field : OpenField)
  | statement (b : Body)
  /-- A statement has begun with a name. -/
  | afterName (b : Body) (name : String) (nameSpan : Span)
  | variableType (b : Body) (name : String) (nameSpan : Span)
  | afterType (b : Body) (name : String) (nameSpan : Span) (typeName : String) (typeSpan : Span)
  | returned (b : Body) (start : Span)
  | afterArm (b : Body) (chain : Chain)
  | elseColon (b : Body) (chain : Chain)
  | operand (s : Surroundings)
  /-- Inside the parentheses of a call that has no argument yet. -/
  | firstArgument (s : Surroundings) (callee : String) (calleeSpan : Span)
  /-- After a name in an expression, which a parenthesis makes a call. -/
  | callee (s : Surroundings) (name : String) (nameSpan : Span)
  | operator (s : Surroundings) (operand : Expr)
  | castTarget (s : Surroundings) (operand : Expr)
deriving Repr

end ClassAsm.Grammar
