import ClassAsm.Primitive
import ClassAsm.Program.Placement
import ClassAsm.Method.Compiled

/-! The members of a class, declared before any body is compiled: its fields and methods in order,
and then an initializer for each kind of field that has defaults. -/

namespace ClassAsm

/-- A class whose members are declared, and where each of its methods comes from. -/
structure Outline where
  nspace : Nat
  id : ClassId
  cls : Class
  sources : List MethodSource
deriving Repr

namespace Outline

/-- Methods that start a life and are never operators. -/
def specialMethods : List String := [".ctor", ".cctor", "init"]

def constructorName (isStatic : Bool) : String := if isStatic then ".cctor" else ".ctor"

def resolve (r : Registry) (ns : Nat) (name : String) (span : Span) : Except Failure TypeRef :=
  match r.resolve? (TypeName.parse name) ns with
  | some t => .ok t
  | none => .error ((Fault.unknownType name).at span)

def addField (r : Registry) (ns : Nat) (c : Class) (f : FieldDecl) : Except Failure Class := do
  let type ← resolve r ns f.typeName f.span
  match c.addField? ⟨f.name, type, f.isPublic, f.isStatic, f.default, f.span⟩ with
  | some c => .ok c
  | none => .error ((Fault.fieldRedeclared f.name c.name).at f.span)

/-- What a method declared with `class` is registered for, if it is no special method. -/
def operatorKey? (m : MethodDecl) : Option String :=
  if m.kind = .operator && !specialMethods.contains m.name then some m.name.toLower else none

def signature (r : Registry) (ns : Nat) (c : Class) (m : MethodDecl) :
    Except Failure Signature := do
  let returnType ← resolve r ns m.returnType m.returnTypeSpan
  let params ← m.params.mapM fun p => do
    let type ← resolve r ns p.typeName p.span
    pure (p.name, type)
  .ok {
    nspace := c.nspace
    owner := c.name
    name := m.name
    isStatic := m.kind = .static
    isPublic := m.isPublic
    isOperator := (operatorKey? m).any Operation.keys.contains
    isSpecial := specialMethods.contains m.name
    isBuiltin := false
    returnType := returnType
    params := params }

/-- Declares a method, with a warning if it is meant as an operator and has no operator's name. -/
def addMethod (r : Registry) (ns : Nat) (state : Class × Array Warning) (m : MethodDecl) :
    Except Stop (Class × Array Warning) := do
  let (c, warnings) := state
  let sig ← (signature r ns c m).mapError (Stop.mk · warnings)
  let (c, warnings) := match operatorKey? m with
    | none => (c, warnings)
    | some key =>
      if Operation.keys.contains key then (c.registerOperator key m.name, warnings)
      else (c, warnings.push ⟨.invalidOperatorName m.name, some m.nameSpan⟩)
  match c.addMethod? { sig := sig, span := m.span } with
  | some c => .ok (c, warnings)
  | none => .error ⟨(Fault.methodRedeclared m.name c.name).at m.nameSpan, warnings⟩

def needsInitializer (c : Class) (isStatic : Bool) : Bool :=
  c.fields.any fun f => f.isStatic == isStatic && f.default.isSome

def initializerMethod (c : Class) (void : ClassId) (isStatic : Bool) : Method :=
  { sig := {
      nspace := c.nspace, owner := c.name, name := constructorName isStatic
      isStatic := isStatic, isPublic := !isStatic, isOperator := false, isSpecial := true
      isBuiltin := false, returnType := { cls := void }, params := [] }
    span := ⟨0, 0⟩ }

/-- Words have no dots, so the names of initializers are free in every class that was read. In items
that were not read, a method of such a name keeps its place. -/
def addInitializer (void : ClassId) (o : Outline) (isStatic : Bool) : Outline :=
  if needsInitializer o.cls isStatic then
    match o.cls.addMethod? (initializerMethod o.cls void isStatic) with
    | some c => { o with cls := c, sources := o.sources ++ [.initializer isStatic] }
    | none => o
  else o

def ofPlaced (r : Registry) (void : ClassId) (warnings : Array Warning) (p : Placed) :
    Except Stop (Outline × Array Warning) := do
  let shell := (r.class? p.id).getD
    { nspace := "", name := p.decl.name, asmName := "", isPublic := true, isBuiltin := false }
  let c ← (p.decl.fields.foldlM (addField r p.nspace) shell).mapError (Stop.mk · warnings)
  let (c, warnings) ← p.decl.methods.foldlM (addMethod r p.nspace) (c, warnings)
  let o : Outline := ⟨p.nspace, p.id, c, p.decl.methods.map .declared⟩
  .ok ([false, true].foldl (addInitializer void) o, warnings)

end Outline
end ClassAsm
