import ClassAsm.Registry
import ClassAsm.Failure

/-! The places of classes. Every class of a program is entered in its namespace before any member is
declared, so that classes can name each other in any order. -/

namespace ClassAsm

/-- A class declaration that has got its place. -/
structure Placed where
  decl : ClassDecl
  nspace : Nat
  id : ClassId
deriving Repr

/-- The classes placed so far, latest first, and the namespace that is open. -/
structure Placement where
  registry : Registry
  nspace : Nat := 0
  placed : List Placed := []

namespace Placement

def add (p : Placement) : Item → Except Failure Placement
  | .nspace name _ =>
    let (r, ns) := p.registry.openNamespace name
    .ok { p with registry := r, nspace := ns }
  | .cls decl =>
    match p.registry.declareClass? p.nspace decl.name decl.isPublic with
    | some (r, id) => .ok { p with registry := r, placed := ⟨decl, p.nspace, id⟩ :: p.placed }
    | none =>
      .error ((Fault.classRedeclared decl.name (p.registry.namespaceName p.nspace)).at
        decl.nameSpan)

end Placement
end ClassAsm
