import ClassAsm.Program.Outline

/-! Programs. All classes are placed, then all members declared, then the bodies compiled one after
the other and entered in the registry. The first failure ends this; the warnings before it are
kept. -/

namespace ClassAsm

structure Program where
  registry : Registry
  hasMain : Bool
deriving Repr

structure Outcome (α : Type) where
  warnings : List Warning
  result : Except Failure α

namespace Program

/-- The declarations of all classes; every outline is in the registry. -/
def outlines (r : Registry) (void : ClassId) (placed : List Placed) :
    Except Stop (List Outline × Array Warning) := do
  let (os, warnings) ← placed.foldlM (fun (os, warnings) p => do
    let (o, warnings) ← Outline.ofPlaced r void warnings p
    pure (o :: os, warnings)) ([], #[])
  .ok (os.reverse, warnings)

/-- What carries on from method to method: those that are compiled are in the registry. -/
structure Progress where
  program : Program
  labels : Nat
  warnings : Array Warning

/-- Compiles the next method of a class and puts it in its place. -/
def compileMethod (builtins : Builtins) (options : Options) (o : Outline) (p : Progress) :
    Method × MethodSource → Except Stop Progress
  | (m, source) => do
    let r := p.program.registry
    let site : Site := ⟨r, builtins, o.id, o.nspace, m.sig, options⟩
    let (m, labels, warnings) ← m.compile site source p.labels p.warnings
    let registry := r.updateClass o.id (·.updateMethod m.sig.name fun _ => m)
    .ok ⟨⟨registry, p.program.hasMain || source.isEntryPoint⟩, labels, warnings⟩

def compileClass (builtins : Builtins) (options : Options) (p : Progress) (o : Outline) :
    Except Stop Progress :=
  (o.cls.methods.zip o.sources).foldlM (compileMethod builtins options o) p

def mainWarning (options : Options) (hasMain : Bool) : Array Warning :=
  if options.requireMain && !hasMain && !options.muteMainNotDefined then
    #[⟨.mainNotDefined, none⟩]
  else #[]

def build (options : Options) (items : List Item) :
    Except Stop (Program × Array Warning) := do
  let (r, builtins) := Builtins.install Registry.empty
  let placement ← (items.foldlM Placement.add { registry := r }).mapError (Stop.mk · #[])
  let (os, warnings) ← outlines placement.registry builtins.void placement.placed.reverse
  let declared := os.foldl (fun r o => r.updateClass o.id fun _ => o.cls) placement.registry
  let p ← os.foldlM (compileClass builtins options) ⟨⟨declared, false⟩, 0, warnings⟩
  .ok (p.program, p.warnings ++ mainWarning options p.program.hasMain)

def ofItems (options : Options) (items : List Item) : Outcome Program :=
  match build options items with
  | .ok (program, warnings) => ⟨warnings.toList, .ok program⟩
  | .error stop => ⟨stop.warnings.toList, .error stop.failure⟩

end Program
end ClassAsm
