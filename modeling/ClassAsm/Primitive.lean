import ClassAsm.Registry

/-! The built-in classes. A numeric class implements every operation by a few instructions that
stand at the place of use; comparisons leave zero or one. -/

namespace ClassAsm

inductive Numeric where
  | i32 | i64 | f32 | f64
deriving DecidableEq, Repr

namespace Numeric

def all : List Numeric := [i32, i64, f32, f64]

def name : Numeric → String
  | i32 => "i32" | i64 => "i64" | f32 => "f32" | f64 => "f64"

def asmName : Numeric → String
  | i32 => "int32" | i64 => "int64" | f32 => "float32" | f64 => "float64"

def zero : Numeric → Instruction
  | i32 => .ldcI4 0
  | i64 => .ldcI8 0
  | f32 => .ldcR4 ⟨0⟩
  | f64 => .ldcR8 ⟨0⟩

def kind : Numeric → NumberKind
  | i32 => .i4 | i64 => .i8 | f32 => .r4 | f64 => .r8

/-- The instructions of an operation; a cast has none. -/
def template? (n : Numeric) : Operation → Option (List Instruction)
  | .add => some [.arith .add]
  | .sub => some [.arith .sub]
  | .mul => some [.arith .mul]
  | .div => some [.arith .div]
  | .rem => some [.arith .rem]
  | .xor => some [.arith .xor]
  | .and => some [.arith .and]
  | .or => some [.arith .or]
  | .equals => some [.arith .ceq]
  | .greaterThan => some [.arith .cgt]
  | .lesserThan => some [.arith .clt]
  | .greaterThanEquals => some [.arith .clt, .ldcI4 0, .arith .ceq]
  | .lesserThanEquals => some [.arith .cgt, .ldcI4 0, .arith .ceq]
  | .not | .isFalse => some [n.zero, .arith .ceq]
  | .isTrue => some [n.zero, .arith .cgtUn]
  | .cast => none

/-- The operator method of a numeric class with the given number. -/
def method (n : Numeric) (id : ClassId) (op : Operation) (key : String) (code : List Instruction) :
    Method :=
  let sig : Signature :=
    { nspace := Registry.builtinNamespace, owner := n.name, name := key, isStatic := true,
      isPublic := true, isOperator := true, isSpecial := false, isBuiltin := true,
      returnType := { cls := id },
      params := (["a", "b"].take op.arity).map fun p => (p, { cls := id }) }
  { sig := sig, span := ⟨0, 0⟩, body := .inline code }

def addOperator (n : Numeric) (id : ClassId) (c : Class) (op : Operation) : Class :=
  match op.key?, n.template? op with
  | some key, some code =>
    (c.addMethod (n.method id op key code)).1.registerOperator key key
  | _, _ => c

def install (r : Registry) (n : Numeric) : Registry × ClassId :=
  let (r, id) := r.addBuiltin n.name n.asmName
  (r.updateClass id fun c => Operation.dispatched.foldl (n.addOperator id) c, id)

end Numeric

structure Builtins where
  i32 : ClassId
  i64 : ClassId
  f32 : ClassId
  f64 : ClassId
  string : ClassId
  void : ClassId
deriving DecidableEq, Repr

namespace Builtins

def numeric? (b : Builtins) (id : ClassId) : Option Numeric :=
  if id = b.i32 then some .i32
  else if id = b.i64 then some .i64
  else if id = b.f32 then some .f32
  else if id = b.f64 then some .f64
  else none

def isNumeric (b : Builtins) (id : ClassId) : Bool := (b.numeric? id).isSome

def elementKind (b : Builtins) (id : ClassId) : ElementKind :=
  match b.numeric? id with
  | some n => .number n.kind
  | none => .reference

/-- Adds all built-in classes; `none` is another name of `void`. -/
def install (r : Registry) : Registry × Builtins :=
  let (r, i32) := Numeric.install r .i32
  let (r, i64) := Numeric.install r .i64
  let (r, f32) := Numeric.install r .f32
  let (r, f64) := Numeric.install r .f64
  let (r, string) := r.addBuiltin "string" "string"
  let (r, void) := r.addBuiltin "void" "void"
  (r.aliasBuiltin "none" void, ⟨i32, i64, f32, f64, string, void⟩)

end Builtins
end ClassAsm
