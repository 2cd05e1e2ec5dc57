import ClassAsm.Span
import ClassAsm.Operation
import ClassAsm.Numeral.Binary

/-! The tree of a source text: items, members, statements and expressions, each with its span. An
assignment has a value or a declared type by construction, and an `if` has its first arm apart. -/

namespace ClassAsm

inductive Expr where
  | int (value : Nat) (span : Span)
  | float (value : Binary64) (span : Span)
  | str (value : String) (span : Span)
  | ident (name : String) (span : Span)
  | binary (op : BinaryOp) (left right : Expr) (span : Span)
  | unary (op : UnaryOp) (operand : Expr) (span : Span)
  | call (callee : String) (calleeSpan : Span) (args : List Expr) (span : Span)
  | cast (operand : Expr) (target : String) (targetSpan span : Span)
deriving Repr, Inhabited

namespace Expr

def span : Expr → Span
  | int _ s | float _ s | str _ s | ident _ s | binary _ _ _ s | unary _ _ s | call _ _ _ s
  | cast _ _ _ s => s

def withSpan (e : Expr) (s : Span) : Expr :=
  match e with
  | int v _ => int v s
  | float v _ => float v s
  | str v _ => str v s
  | ident n _ => ident n s
  | binary op l r _ => binary op l r s
  | unary op e _ => unary op e s
  | call c cs args _ => call c cs args s
  | cast e t ts _ => cast e t ts s

def isCall : Expr → Bool
  | call .. => true
  | _ => false

end Expr

mutual

inductive Stmt where
  | expr (value : Expr)
  /-- `name: type`, a variable without a value. -/
  | declare (name : String) (nameSpan : Span) (typeName : String) (span : Span)
  /-- `name = value` or `name: type = value`. -/
  | assign (name : String) (nameSpan : Span) (typeName : Option String) (value : Expr)
      (span : Span)
  | ret (value : Option Expr) (span : Span)
  /-- The `if` arm, the `elif` arms and the `else` block. -/
  | cond (first : Arm) (rest : List Arm) (otherwise : Option Block) (span : Span)
  | loop (condition : Expr) (body : Block) (span : Span)

inductive Arm where
  | mk (condition : Expr) (body : Block) (span : Span)

/-- Statements up to a closing `;`. -/
inductive Block where
  | mk (stmts : List Stmt) (span : Span)

end

deriving instance Repr for Stmt, Arm, Block

namespace Arm

def condition : Arm → Expr
  | mk c _ _ => c

def body : Arm → Block
  | mk _ b _ => b

def span : Arm → Span
  | mk _ _ s => s

end Arm

namespace Block

def stmts : Block → List Stmt
  | mk ss _ => ss

def span : Block → Span
  | mk _ s => s

end Block

def Stmt.span : Stmt → Span
  | .expr e => e.span
  | .declare _ _ _ s | .assign _ _ _ _ s | .ret _ s | .cond _ _ _ s | .loop _ _ s => s

structure Param where
  name : String
  typeName : String
  span : Span
deriving DecidableEq, Repr

structure FieldDecl where
  name : String
  typeName : String
  isPublic : Bool
  isStatic : Bool
  default : Option Expr
  span : Span
deriving Repr

/-- How a method is declared; an operator is declared with `class`. -/
inductive MethodKind where
  | plain
  | static
  | operator
deriving DecidableEq, Repr

structure MethodDecl where
  name : String
  nameSpan : Span
  returnType : String
  returnTypeSpan : Span
  params : List Param
  body : Block
  isPublic : Bool
  kind : MethodKind
  span : Span
deriving Repr

structure ClassDecl where
  name : String
  nameSpan : Span
  isPublic : Bool
  fields : List FieldDecl
  methods : List MethodDecl
  span : Span
deriving Repr

inductive Item where
  /-- The namespace of the classes that follow. -/
  | nspace (name : String) (span : Span)
  | cls (decl : ClassDecl)
deriving Repr

end ClassAsm
