import ClassAsm.Registry.Naming
import ClassAsm.Instruction.Text

/-! The assembly text of a program, as lines. Namespaces without classes and methods that were not
compiled into segments do not appear. -/

namespace ClassAsm.Assembly

def indent (n : Nat) (line : String) : String := "".pushn ' ' (2 * n) ++ line

/-- The opening brace of a block, at the end of its first line. -/
def opened (line : String) : String := line ++ " \x7b"

def closing : String := "\x7d"

def access (isPublic : Bool) : String := if isPublic then "public" else "private"

def fieldLine (r : Registry) (f : Field) : String :=
  let static := if f.isStatic then " static" else ""
  ".field " ++ access f.isPublic ++ static ++ " " ++ r.declaredType f.type ++ " " ++ f.name

def localLines (r : Registry) (locals : List (String × TypeRef)) : List String :=
  if locals.isEmpty then []
  else
    let count := locals.length
    let row (l : (String × TypeRef) × Nat) : String :=
      let comma := if l.2 + 1 < count then "," else ""
      indent 4 (s!"[{l.2}] " ++ r.plainType l.1.2 ++ " " ++ l.1.1 ++ comma)
    [indent 3 ".locals init ("] ++ locals.zipIdx.map row ++ [indent 3 ")"]

def segmentLines (s : Segment) : List String :=
  indent 3 (s.name ++ ":") :: s.code.map fun i => indent 4 i.text

def methodLines (r : Registry) (m : Method) : List String :=
  match m.body with
  | .segments segments =>
    [indent 2 (opened (r.methodHeader m.sig))] ++
      (if m.isEntryPoint then [indent 3 ".entrypoint"] else []) ++
      [indent 3 (".maxstack " ++ toString m.maxStack)] ++
      localLines r m.locals ++ segments.flatMap segmentLines ++ [indent 2 closing]
  | _ => []

def classLines (r : Registry) (c : Class) : List String :=
  let head := ".class " ++ access c.isPublic ++ " auto ansi beforefieldinit " ++ c.name ++
    " extends [mscorlib]System.Object"
  [indent 1 (opened head)] ++ c.fields.map (fun f => indent 2 (fieldLine r f)) ++
    c.methods.flatMap (methodLines r) ++ [indent 1 closing]

def namespaceLines (r : Registry) (n : Namespace) : List String :=
  if n.isEmpty then []
  else
    let classes := n.classes.filterMap fun c => r.class? c.2
    ["", opened (".namespace " ++ n.name)] ++ classes.flatMap (classLines r) ++ [closing]

def lines (r : Registry) (assemblyName : String) : List String :=
  [".assembly extern mscorlib \x7b\x7d", ".assembly " ++ assemblyName ++ " \x7b\x7d"] ++
    r.namespaces.flatMap (namespaceLines r)

def text (r : Registry) (assemblyName : String) : String :=
  (lines r assemblyName).foldl (fun s l => s ++ l ++ "\n") ""

end ClassAsm.Assembly
