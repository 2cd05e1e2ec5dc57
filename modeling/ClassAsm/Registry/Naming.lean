import ClassAsm.Registry

/-! How types, methods and fields are named, in the assembly text and in messages. -/

namespace ClassAsm.Registry

def asmName (r : Registry) (id : ClassId) : String := (r.class? id).elim "" (·.asmName)

def className (r : Registry) (id : ClassId) : String := (r.class? id).elim "" (·.name)

/-- A type in the declaration of a method or field. -/
def declaredType (r : Registry) (t : TypeRef) : String :=
  let base := r.asmName t.cls
  if t.out then "[out] " ++ base ++ "&" else if t.byRef then base ++ "&" else base

/-- A type at a call or of a local, where outputs are not marked. -/
def plainType (r : Registry) (t : TypeRef) : String :=
  if t.isAddress then r.asmName t.cls ++ "&" else r.asmName t.cls

/-- A type as the source writes it. -/
def showType (r : Registry) (t : TypeRef) : String :=
  let base := r.className t.cls
  if t.out then "_" ++ base else if t.byRef then base ++ "_" else base

def callTarget (r : Registry) (s : Signature) : String :=
  let receiver := if s.takesReceiver then "instance " else ""
  let params := ", ".intercalate (s.params.map fun p => r.plainType p.2)
  receiver ++ r.declaredType s.returnType ++ " " ++ s.nspace ++ "." ++ s.owner ++ "::" ++ s.name
    ++ "(" ++ params ++ ")"

def fieldTarget (r : Registry) (owner : ClassId) (f : Field) : String :=
  let place := (r.class? owner).elim "" fun c => c.nspace ++ "." ++ c.name
  r.declaredType f.type ++ " " ++ place ++ "::" ++ f.name

def methodHeader (r : Registry) (s : Signature) : String :=
  let access := if s.isPublic then "public" else "private"
  let special := if s.isSpecial && s.name.toList.head? == some '.' then
    " hidebysig specialname rtspecialname" else ""
  let receiver := if s.takesReceiver then " instance" else " static"
  let params := ", ".intercalate (s.params.map fun p => r.declaredType p.2 ++ " " ++ p.1)
  ".method " ++ access ++ special ++ receiver ++ " " ++ r.declaredType s.returnType ++ " "
    ++ s.name ++ "(" ++ params ++ ") cil managed"

end ClassAsm.Registry
