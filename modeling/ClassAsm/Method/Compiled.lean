import ClassAsm.Method.Body

/-! Whole methods. A declared method first copies its arguments into locals and then runs its body;
an initializer stores the defaults of fields. At the end every segment is closed: a void method
returns, code that never runs jumps to itself, and anything else lacks a value. -/

namespace ClassAsm

inductive MethodSource where
  | declared (decl : MethodDecl)
  /-- Stores the defaults of the static or of the instance fields. -/
  | initializer (isStatic : Bool)
deriving Repr

namespace Draft

/-- Arguments are numbered in sixteen bits, and the last number stands for all beyond it. -/
def argumentLimit : Nat := 65535

/-- The number of a parameter's argument; a receiver comes before the parameters. -/
def argumentSlot (site : Site) (index : Nat) : Nat :=
  min (index + if site.sig.takesReceiver then 1 else 0) argumentLimit

/-- Copies the arguments from the given index on into new locals. -/
def params (d : Draft) (site : Site) (index : Nat) :
    List (Param × TypeRef) → Except Stop Draft
  | [] => .ok d
  | (p, type) :: rest =>
    match known : d.locals.find? p.name with
    | some _ => .error (d.stop ((Fault.paramRedeclared p.name).at p.span))
    | none =>
      if d.locals.isFull then .error (d.stop (Fault.tooManyLocals.at p.span))
      else
        let slot := d.locals.size
        let d := (d.addLocal p.name type).emit (.ldarg (argumentSlot site index))
        (d.emit (.stloc slot)).params site (index + 1) rest

/-- Stores the defaults of fields, through the receiver if there is one. -/
def defaults (d : Draft) (site : Site) (isStatic : Bool) : List Field → Except Stop Draft
  | [] => .ok d
  | f :: rest =>
    match f.default with
    | none => d.defaults site isStatic rest
    | some value => do
      if f.isStatic != isStatic then d.defaults site isStatic rest
      else
        let d := if isStatic then d else d.emit (.ldarg 0)
        let (got, d) ← d.value site value
        if got ≠ f.type then
          .error (d.stop ((Fault.defaultMismatch f.name (site.showType f.type)
            (site.showType got)).at value.span))
        else
          let target := site.registry.fieldTarget site.owner f
          (d.emit (if isStatic then .stsfld target else .stfld target)).defaults site isStatic rest

def closeSegment (site : Site) (span : Span) (d : Draft) (i : Nat) : Except Stop Draft :=
  let s := d.segment i
  if s.isTerminated || isUnused i s then .ok d
  else
    let d := d.switchTo i
    if site.returnsVoid then .ok (d.emit (.ret false))
    else if !s.isLive then .ok (d.branch .br i)
    else .error (d.stop ((Fault.fallsThrough site.sig.name
      (site.showType site.sig.returnType)).at span))

def finish (d : Draft) (site : Site) (span : Span) : Except Stop (List Segment × Draft) := do
  let d ← (List.range d.segments.size).foldlM (closeSegment site span) d
  let kept := d.segments.toList.zipIdx.filter fun (s, i) => !isUnused i s
  .ok (kept.map fun (s, _) => s.close, d)

def source (d : Draft) (site : Site) : MethodSource → Except Stop (List Segment × Draft)
  | .declared decl => do
    let types := site.sig.params.map (·.2)
    let d ← d.params site 0 (decl.params.zip types)
    let d ← d.stmts site decl.body.stmts
    d.finish site decl.nameSpan
  | .initializer isStatic => do
    let fields := (site.registry.class? site.owner).elim [] (·.fields)
    let d := if isStatic then d else (d.emit (.ldarg 0)).emit .callBaseCtor
    let d ← d.defaults site isStatic fields
    d.finish site ⟨0, 0⟩

end Draft

/-- A program starts in the method named `main`, whatever the case of its letters. -/
def MethodSource.isEntryPoint : MethodSource → Bool
  | .declared decl => decl.name.toLower == "main"
  | .initializer _ => false

/-- Compiles a declared method; `labels` and `warnings` carry on from the methods before. -/
def Method.compile (m : Method) (site : Site) (source : MethodSource) (labels : Nat)
    (warnings : Array Warning) : Except Stop (Method × Nat × Array Warning) := do
  let (segments, d) ← (Draft.start labels warnings).source site source
  let m := { m with
    body := .segments segments
    locals := d.locals.toList
    maxStack := d.peak
    isEntryPoint := source.isEntryPoint }
  .ok (m, d.labels, d.warnings)

end ClassAsm
