import Mathlib.Tactic
import ClassAsm.Tree

/-! Trees without their spans. Two trees are the same up to spans if nothing else tells them apart. -/

namespace ClassAsm

/-- The one span of all parts of a bare tree. -/
def Span.nowhere : Span := .point 0

mutual

/-- What an expression says, wherever it stands. -/
def Expr.bare : Expr → Expr
  | .int v _ => .int v .nowhere
  | .float v _ => .float v .nowhere
  | .str v _ => .str v .nowhere
  | .ident name _ => .ident name .nowhere
  | .binary op l r _ => .binary op l.bare r.bare .nowhere
  | .unary op e _ => .unary op e.bare .nowhere
  | .call callee _ args _ => .call callee .nowhere (Expr.bareEach args) .nowhere
  | .cast e target _ _ => .cast e.bare target .nowhere .nowhere

def Expr.bareEach : List Expr → List Expr
  | [] => []
  | e :: es => e.bare :: Expr.bareEach es

end

/-- The lists are followed apart from `List.map` for the recursion alone. -/
theorem Expr.bareEach_eq_map (es : List Expr) : Expr.bareEach es = es.map Expr.bare := by
  induction es with
  | nil => rfl
  | cons e es ih => simp [Expr.bareEach, ih]

@[simp] theorem Expr.bare_withSpan (e : Expr) (s : Span) : (e.withSpan s).bare = e.bare := by
  cases e <;> rfl

mutual

def Stmt.bare : Stmt → Stmt
  | .expr e => .expr e.bare
  | .declare name _ type _ => .declare name .nowhere type .nowhere
  | .assign name _ type e _ => .assign name .nowhere type e.bare .nowhere
  | .ret value _ => .ret (value.map Expr.bare) .nowhere
  | .cond first rest otherwise _ =>
    .cond first.bare (Arm.bareEach rest) (Block.bareElse otherwise) .nowhere
  | .loop e b _ => .loop e.bare b.bare .nowhere

def Arm.bare : Arm → Arm
  | .mk e b _ => .mk e.bare b.bare .nowhere

def Arm.bareEach : List Arm → List Arm
  | [] => []
  | a :: as => a.bare :: Arm.bareEach as

def Block.bareElse : Option Block → Option Block
  | none => none
  | some b => some b.bare

def Block.bare : Block → Block
  | .mk ss _ => .mk (Stmt.bareEach ss) .nowhere

def Stmt.bareEach : List Stmt → List Stmt
  | [] => []
  | s :: ss => s.bare :: Stmt.bareEach ss

end

theorem Arm.bareEach_eq_map (as : List Arm) : Arm.bareEach as = as.map Arm.bare := by
  induction as with
  | nil => rfl
  | cons a as ih => simp [Arm.bareEach, ih]

theorem Stmt.bareEach_eq_map (ss : List Stmt) : Stmt.bareEach ss = ss.map Stmt.bare := by
  induction ss with
  | nil => rfl
  | cons s ss ih => simp [Stmt.bareEach, ih]

def FieldDecl.bare (f : FieldDecl) : FieldDecl :=
  { f with default := f.default.map Expr.bare, span := .nowhere }

def Param.bare (p : Param) : Param := { p with span := .nowhere }

/-- The spans of the names of a method and of its type are left out as well. -/
def MethodDecl.bare (m : MethodDecl) : MethodDecl :=
  { m with nameSpan := .nowhere, returnTypeSpan := .nowhere, params := m.params.map Param.bare,
           body := m.body.bare, span := .nowhere }

def ClassDecl.bare (c : ClassDecl) : ClassDecl :=
  { c with nameSpan := .nowhere, fields := c.fields.map FieldDecl.bare,
           methods := c.methods.map MethodDecl.bare, span := .nowhere }

def Item.bare : Item → Item
  | .nspace name _ => .nspace name .nowhere
  | .cls c => .cls c.bare

end ClassAsm
