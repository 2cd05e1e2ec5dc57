import ClassAsm.Instruction
import ClassAsm.Numeral.Layout
import ClassAsm.Text.Escape

/-! The assembly text of an instruction. Small integers and low slots have short forms. -/

namespace ClassAsm

def NumberKind.suffix : NumberKind → String
  | i4 => "i4" | i8 => "i8" | r4 => "r4" | r8 => "r8"

def ElementKind.suffix : ElementKind → String
  | number kind => kind.suffix
  | reference => "ref"

def Arith.mnemonic : Arith → String
  | add => "add" | sub => "sub" | mul => "mul" | div => "div" | rem => "rem" | xor => "xor"
  | and => "and" | or => "or" | ceq => "ceq" | cgt => "cgt" | cgtUn => "cgt.un" | clt => "clt"

namespace Instruction

/-- A slot in the mnemonic up to 3, in one byte below 256. -/
def slotText (mnemonic : String) (slot : Nat) : String :=
  if slot ≤ 3 then s!"{mnemonic}.{slot}"
  else if slot < 256 then s!"{mnemonic}.s {slot}"
  else s!"{mnemonic} {slot}"

/-- A 32-bit constant: in the mnemonic from -1 to 8, in one byte from -128 to 127. -/
def smallConstant (v : Int) : String :=
  if v = -1 then "ldc.i4.m1"
  else if 0 ≤ v ∧ v ≤ 8 then s!"ldc.i4.{v}"
  else if -128 ≤ v ∧ v ≤ 127 then s!"ldc.i4.s {v}"
  else s!"ldc.i4 {v}"

def text : Instruction → String
  | ldcI4 v => smallConstant v.toInt
  | ldcI8 v => "ldc.i8 " ++ toString v.toInt
  | ldcR4 v => "ldc.r4 " ++ FloatLayout.operand.render v.widen
  | ldcR8 v => "ldc.r8 " ++ FloatLayout.operand.render v
  | ldstr s => "ldstr \"" ++ Text.escape s ++ "\""
  | ldloc n => slotText "ldloc" n
  | stloc n => slotText "stloc" n
  | ldarg n => slotText "ldarg" n
  | ldloca n => if n < 256 then s!"ldloca.s {n}" else s!"ldloca {n}"
  | ldsfld f => "ldsfld " ++ f
  | ldfld f => "ldfld " ++ f
  | stsfld f => "stsfld " ++ f
  | stfld f => "stfld " ++ f
  | ldind k => "ldind." ++ k.suffix
  | stind k => "stind." ++ k.suffix
  | pop => "pop"
  | arith op => op.mnemonic
  | neg => "neg"
  | conv k => "conv." ++ k.suffix
  | call target _ _ => "call " ++ target
  | callBaseCtor => "call instance void [mscorlib]System.Object::.ctor()"
  | br label => "br " ++ label
  | brtrue label => "brtrue " ++ label
  | brfalse label => "brfalse " ++ label
  | ret _ => "ret"

end Instruction
end ClassAsm
