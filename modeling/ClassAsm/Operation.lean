/-! Operators of the source language and the operations that classes implement for them. -/

namespace ClassAsm

inductive BinaryOp where
  | add | sub | mul | div | rem | eq | ne | lt | gt | le | ge | and | or
deriving DecidableEq, Repr

namespace BinaryOp

def symbol : BinaryOp → String
  | add => "+" | sub => "-" | mul => "*" | div => "/" | rem => "%" | eq => "==" | ne => "!="
  | lt => "<" | gt => ">" | le => "<=" | ge => ">=" | and => "&&" | or => "||"

def all : List BinaryOp := [add, sub, mul, div, rem, eq, ne, lt, gt, le, ge, and, or]

end BinaryOp

inductive UnaryOp where
  | neg | pos | not
deriving DecidableEq, Repr

/-- What an operator method of a class can stand for. A cast is never a method. -/
inductive Operation where
  | add | sub | mul | div | rem | xor
  | greaterThan | greaterThanEquals | lesserThan | lesserThanEquals | equals
  | not | isTrue | isFalse | and | or
  | cast
deriving DecidableEq, Repr

namespace Operation

/-- The operations that a numeric class implements, all but the cast. -/
def dispatched : List Operation :=
  [add, sub, mul, div, rem, xor, greaterThan, greaterThanEquals, lesserThan, lesserThanEquals,
   equals, not, isTrue, isFalse, and, or]

def key? : Operation → Option String
  | add => some "opadd" | sub => some "opsub" | mul => some "opmul" | div => some "opdiv"
  | rem => some "oprem" | xor => some "opxor"
  | greaterThan => some "opgreater" | greaterThanEquals => some "opgreaterequals"
  | lesserThan => some "oplesser" | lesserThanEquals => some "oplesserequals"
  | equals => some "opequals" | not => some "opnot"
  | isTrue => some "optrue" | isFalse => some "opfalse"
  | and => some "opand" | or => some "opor"
  | cast => none

/-- The method names that can be operators, in the order in which messages list them. -/
def keys : List String :=
  ["opadd", "opsub", "opmul", "opdiv", "opgreater", "opgreaterequals", "oplesser",
   "oplesserequals", "opfalse", "optrue", "oprem", "opxor", "opequals", "opnot", "opand", "opor"]

def arity : Operation → Nat
  | not | isTrue | isFalse | cast => 1
  | _ => 2

def label : Operation → String
  | add => "Add" | sub => "Sub" | mul => "Mul" | div => "Div" | rem => "Rem" | xor => "Xor"
  | greaterThan => "GreaterThan" | greaterThanEquals => "GreaterThanEquals"
  | lesserThan => "LesserThan" | lesserThanEquals => "LesserThanEquals" | equals => "Equals"
  | not => "Not" | isTrue => "IsTrue" | isFalse => "IsFalse" | and => "And" | or => "Or"
  | cast => "Cast"

end Operation

/-- The operation behind an operator; `!=` is the negation of what `==` gives. -/
def BinaryOp.operation : BinaryOp → Operation
  | add => .add | sub => .sub | mul => .mul | div => .div | rem => .rem
  | eq | ne => .equals
  | lt => .lesserThan | gt => .greaterThan | le => .lesserThanEquals | ge => .greaterThanEquals
  | and => .and | or => .or

end ClassAsm
