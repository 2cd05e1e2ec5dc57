import ClassAsm.Numeral.Binary

/-! The instructions of the stack machine, with the number of operands that each takes off the stack
and puts on it. Branches name segments, calls and field accesses carry the full reference as it is
written in the assembly text. -/

namespace ClassAsm

inductive NumberKind where
  | i4 | i8 | r4 | r8
deriving DecidableEq, Repr

inductive ElementKind where
  | number (kind : NumberKind)
  | reference
deriving DecidableEq, Repr

inductive Arith where
  | add | sub | mul | div | rem | xor | and | or
  | ceq | cgt | cgtUn | clt
deriving DecidableEq, Repr

inductive Instruction where
  | ldcI4 (value : Int32)
  | ldcI8 (value : Int64)
  | ldcR4 (value : Binary32)
  | ldcR8 (value : Binary64)
  | ldstr (value : String)
  | ldloc (slot : Nat)
  | stloc (slot : Nat)
  /-- The address of a local. -/
  | ldloca (slot : Nat)
  | ldarg (slot : Nat)
  | ldsfld (field : String)
  | ldfld (field : String)
  | stsfld (field : String)
  | stfld (field : String)
  /-- The value behind an address. -/
  | ldind (kind : ElementKind)
  | stind (kind : ElementKind)
  | pop
  | arith (op : Arith)
  | neg
  | conv (kind : NumberKind)
  | call (target : String) (pops pushes : Nat)
  /-- The base constructor on the receiver. -/
  | callBaseCtor
  | br (label : String)
  | brtrue (label : String)
  | brfalse (label : String)
  | ret (hasValue : Bool)
deriving DecidableEq, Repr

/-- How many operands leave the stack, and how many come onto it then. -/
structure StackEffect where
  pops : Nat
  pushes : Nat
deriving DecidableEq, Repr

namespace Instruction

def effect : Instruction → StackEffect
  | ldcI4 _ | ldcI8 _ | ldcR4 _ | ldcR8 _ | ldstr _ => ⟨0, 1⟩
  | ldloc _ | ldloca _ | ldarg _ | ldsfld _ => ⟨0, 1⟩
  | stloc _ | stsfld _ => ⟨1, 0⟩
  | ldfld _ | ldind _ => ⟨1, 1⟩
  | stfld _ | stind _ => ⟨2, 0⟩
  | pop => ⟨1, 0⟩
  | arith _ => ⟨2, 1⟩
  | neg | conv _ => ⟨1, 1⟩
  | call _ pops pushes => ⟨pops, pushes⟩
  | callBaseCtor => ⟨1, 0⟩
  | br _ => ⟨0, 0⟩
  | brtrue _ | brfalse _ => ⟨1, 0⟩
  | ret hasValue => ⟨hasValue.toNat, 0⟩

/-- Control never goes on to the next instruction. -/
def isTerminator : Instruction → Bool
  | br _ | ret _ => true
  | _ => false

def target? : Instruction → Option String
  | br label | brtrue label | brfalse label => some label
  | _ => none

end Instruction

structure Segment where
  name : String
  code : List Instruction
deriving DecidableEq, Repr

/-- The last instruction is a terminator. -/
def Segment.isTerminated (s : Segment) : Bool := s.code.getLast?.any Instruction.isTerminator

end ClassAsm
