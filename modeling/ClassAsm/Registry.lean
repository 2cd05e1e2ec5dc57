import ClassAsm.Tree
import ClassAsm.TypeName
import ClassAsm.Instruction
import ClassAsm.Table

/-! The declarations of a program: classes with their fields, methods and operator tables, and the
namespaces that hold them. Classes are numbered in the order in which they arrive. Members and
classes stand in lists that keep this order, and each list has an index by name. An operation that can
be refused gives the state that it leaves and tells whether it was accepted. -/

namespace ClassAsm

abbrev ClassId := Nat

/-- A class, by value or by address. -/
structure TypeRef where
  cls : ClassId
  byRef : Bool := false
  out : Bool := false
deriving DecidableEq, Repr, Inhabited

namespace TypeRef

def isAddress (t : TypeRef) : Bool := t.byRef || t.out

/-- The type of what is stored, without an address. -/
def valueType (t : TypeRef) : TypeRef := ⟨t.cls, false, false⟩

end TypeRef

structure Field where
  name : String
  type : TypeRef
  isPublic : Bool
  isStatic : Bool
  default : Option Expr
  span : Span
deriving Repr

structure Signature where
  nspace : String
  owner : String
  name : String
  isStatic : Bool
  isPublic : Bool
  /-- Listed in the operator table of its owner. -/
  isOperator : Bool
  /-- An initializer or `init`, which is never an operator. -/
  isSpecial : Bool
  isBuiltin : Bool
  returnType : TypeRef
  params : List (String × TypeRef)
deriving DecidableEq, Repr

/-- Operator methods get both operands as arguments, so they have no receiver. -/
def Signature.takesReceiver (s : Signature) : Bool := !s.isStatic && !s.isOperator

inductive MethodBody where
  /-- Declared, but not compiled. -/
  | pending
  /-- Instructions that stand in place of a call. -/
  | inline (code : List Instruction)
  | segments (segments : List Segment)
deriving Repr

structure Method where
  sig : Signature
  span : Span
  body : MethodBody := .pending
  locals : List (String × TypeRef) := []
  maxStack : Nat := 0
  isEntryPoint : Bool := false
deriving Repr

structure Class where
  nspace : String
  name : String
  /-- How signatures in the assembly text name it. -/
  asmName : String
  isPublic : Bool
  isBuiltin : Bool
  fieldTable : Table Field.name := {}
  methodTable : Table fun m : Method => m.sig.name := {}
  /-- Method names by operator key. -/
  operators : List (String × String) := []
deriving Repr

namespace Class

def fields (c : Class) : List Field := c.fieldTable.toList

def methods (c : Class) : List Method := c.methodTable.toList

def field? (c : Class) (name : String) : Option Field := c.fieldTable.find? name

def method? (c : Class) (name : String) : Option Method := c.methodTable.find? name

/-- A name that is taken is refused. -/
def addField (c : Class) (f : Field) : Class × Bool :=
  let (fields, added) := c.fieldTable.add f
  ({ c with fieldTable := fields }, added)

/-- A name that is taken is refused. -/
def addMethod (c : Class) (m : Method) : Class × Bool :=
  let (methods, added) := c.methodTable.add m
  ({ c with methodTable := methods }, added)

def addField? (c : Class) (f : Field) : Option Class :=
  if (c.addField f).2 then some (c.addField f).1 else none

def addMethod? (c : Class) (m : Method) : Option Class :=
  if (c.addMethod m).2 then some (c.addMethod m).1 else none

def registerOperator (c : Class) (key method : String) : Class :=
  { c with operators := (key, method) :: c.operators.filter (·.1 != key) }

def operator? (c : Class) (op : Operation) : Option Method := do
  let key ← op.key?
  let name ← c.operators.lookup key
  c.method? name

/-- Changes a method, but not its signature. -/
def updateMethod (c : Class) (name : String) (f : Method → Method) : Class :=
  let methods := c.methodTable.modify name (fun m => { f m with sig := m.sig }) fun _ => rfl
  { c with methodTable := methods }

end Class

/-- Classes are listed in order of declaration, with an index by name; the two agree. -/
structure Namespace where
  name : String
  classes : List (String × ClassId) := []
  index : Std.ExtTreeMap String ClassId := {}
  indexes : ∀ (name : String) (id : ClassId), index[name]? = some id ↔ (name, id) ∈ classes :=
    by simp

namespace Namespace

instance : Repr Namespace := ⟨fun n => reprPrec (n.name, n.classes)⟩

theorem indexes_concat {n : Namespace} {name : String} (new : n.index[name]? = none) (id : ClassId)
    (name' : String) (id' : ClassId) : (n.index.insert name id)[name']? = some id' ↔
      (name', id') ∈ n.classes ++ [(name, id)] := by
  have absent : (name, id') ∉ n.classes := fun listed => by
    simp [(n.indexes name id').2 listed] at new
  simp only [Std.ExtTreeMap.getElem?_insert, Std.compare_eq_iff_eq, List.mem_append,
    List.mem_singleton, Prod.mk.injEq, ← n.indexes]
  by_cases same : name = name'
  · subst same
    simp [new, eq_comm]
  · simp [same, Ne.symm same]

def lookup (n : Namespace) (name : String) : Option ClassId := n.index[name]?

def isEmpty (n : Namespace) : Bool := n.classes.isEmpty

def push (n : Namespace) (name : String) (id : ClassId) (new : n.lookup name = none) : Namespace :=
  ⟨n.name, n.classes ++ [(name, id)], n.index.insert name id, indexes_concat new id⟩

end Namespace

structure Registry where
  classes : Array Class := #[]
  /-- Classes that every namespace sees, by name, latest first. -/
  builtins : List (String × ClassId) := []
  namespaces : List Namespace := []
deriving Repr

namespace Registry

def builtinNamespace : String := "Sys"

/-- The namespace of classes that stand before any namespace declaration. -/
def defaultNamespace : String := "Program"

def empty : Registry := { namespaces := [{ name := defaultNamespace }] }

def class? (r : Registry) (id : ClassId) : Option Class := r.classes[id]?

def updateClass (r : Registry) (id : ClassId) (f : Class → Class) : Registry :=
  { r with classes := r.classes.modify id f }

/-- Applies an update that may be refused, and tells whether it was accepted. -/
def alterClass (r : Registry) (id : ClassId) (f : Class → Class × Bool) : Registry × Bool :=
  match r.classes[id]? with
  | some c =>
    let (c, accepted) := f c
    ({ r with classes := r.classes.setIfInBounds id c }, accepted)
  | none => (r, false)

/-- The registry after an update, unless that is refused. -/
def updateClass? (r : Registry) (id : ClassId) (f : Class → Option Class) : Option Registry := do
  let c ← r.classes[id]?
  let c ← f c
  pure { r with classes := r.classes.setIfInBounds id c }

def addBuiltin (r : Registry) (name asmName : String) : Registry × ClassId :=
  let id := r.classes.size
  let c : Class :=
    { nspace := builtinNamespace, name := name, asmName := asmName, isPublic := true,
      isBuiltin := true }
  ({ r with classes := r.classes.push c, builtins := (name, id) :: r.builtins }, id)

def aliasBuiltin (r : Registry) (name : String) (id : ClassId) : Registry :=
  { r with builtins := (name, id) :: r.builtins }

def builtin? (r : Registry) (name : String) : Option ClassId := r.builtins.lookup name

/-- The index of a namespace, which is added if there is none of that name. -/
def openNamespace (r : Registry) (name : String) : Registry × Nat :=
  match r.namespaces.findIdx? (·.name == name) with
  | some i => (r, i)
  | none => ({ r with namespaces := r.namespaces ++ [{ name := name }] }, r.namespaces.length)

def namespaceName (r : Registry) (ns : Nat) : String :=
  match r.namespaces[ns]? with
  | some n => n.name
  | none => defaultNamespace

/-- Declares a class in an open namespace and gives its number; a name that the namespace has is
refused. -/
def declareClass (r : Registry) (ns : Nat) (name : String) (isPublic : Bool) :
    Registry × Option ClassId :=
  match r.namespaces[ns]? with
  | none => (r, none)
  | some n =>
    if new : n.lookup name = none then
      let id := r.classes.size
      let c : Class :=
        { nspace := n.name, name := name, asmName := s!"class {n.name}.{name}",
          isPublic := isPublic, isBuiltin := false }
      let namespaces := r.namespaces.set ns (n.push name id new)
      ({ r with classes := r.classes.push c, namespaces := namespaces }, some id)
    else (r, none)

/-- The registry with one more class, unless that is refused. -/
def declareClass? (r : Registry) (ns : Nat) (name : String) (isPublic : Bool) :
    Option (Registry × ClassId) :=
  let (r, id?) := r.declareClass ns name isPublic
  id?.map fun id => (r, id)

/-- A type name in a namespace; built-in classes come first. -/
def resolve? (r : Registry) (name : TypeName) (ns : Nat) : Option TypeRef := do
  let id ← (r.builtin? name.base).or (r.namespaces[ns]?.bind (·.lookup name.base))
  pure ⟨id, name.byRef, name.out⟩

end Registry
end ClassAsm
