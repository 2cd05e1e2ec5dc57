import ClassAsm.Method.Draft
import ClassAsm.Options

/-! The segments of a method body. Statements are compiled in order into the current segment;
loops and conditions add segments and leave the draft in the one that control reaches after them.
A statement that control cannot reach is reported once, and then left out or kept apart. -/

namespace ClassAsm

/-- A method that is being compiled, and the declarations around it. -/
structure Site where
  registry : Registry
  builtins : Builtins
  owner : ClassId
  nspace : Nat
  sig : Signature
  options : Options

namespace Site

def scope (s : Site) (locals : Locals) : Scope :=
  ⟨s.registry, s.builtins, s.owner, s.nspace, s.sig.takesReceiver, locals⟩

def showType (s : Site) (t : TypeRef) : String := s.registry.showType t

def returnsVoid (s : Site) : Bool := s.sig.returnType.cls == s.builtins.void

end Site

namespace Draft

def expr (d : Draft) (site : Site) (e : Expr) : Except Stop (TypeRef × Draft) := do
  let c ← d.check ((site.scope d.locals).code e)
  .ok (c.type, d.emitAll c.instructions)

def value (d : Draft) (site : Site) (e : Expr) : Except Stop (TypeRef × Draft) := do
  let c ← d.check ((site.scope d.locals).valueCode e)
  .ok (c.type, d.emitAll c.instructions)

/-- The slot of a name for values of a type. A new name gets a slot, a known one has to have the
same type. -/
def bind (d : Draft) (site : Site) (name : String) (type : TypeRef) (span : Span) :
    Except Stop (Nat × Draft) :=
  match known : d.locals.find? name with
  | some (slot, existing) =>
    if existing = type then .ok (slot, d)
    else .error (d.stop ((Fault.localMismatch name (site.showType existing)
      (site.showType type)).at span))
  | none =>
    if d.locals.isFull then .error (d.stop (Fault.tooManyLocals.at span))
    else .ok (d.locals.size, d.addLocal name type)

def declare (d : Draft) (site : Site) (name : String) (span : Span) (typeName : String) :
    Except Stop Draft := do
  let type ← d.check ((site.scope d.locals).resolveType typeName span)
  let (_, d) ← d.bind site name type span
  .ok d

/-- `name = value` where the name is a field of the class. -/
def assignField (d : Draft) (site : Site) (f : Field) (span : Span) (value : Expr) :
    Except Stop Draft := do
  if !f.isStatic && !site.sig.takesReceiver then
    .error (d.stop ((Fault.staticFieldAccess f.name).at span))
  else
    let d := if f.isStatic then d else d.emit (.ldarg 0)
    let (got, d) ← d.value site value
    if got ≠ f.type then
      .error (d.stop ((Fault.fieldMismatch f.name (site.showType f.type)
        (site.showType got)).at span))
    else
      let target := site.registry.fieldTarget site.owner f
      .ok (d.emit (if f.isStatic then .stsfld target else .stfld target))

/-- `name = value` where the name is a local that holds an address. -/
def assignThrough (d : Draft) (site : Site) (name : String) (span : Span) (slot : Nat)
    (type : TypeRef) (value : Expr) : Except Stop Draft := do
  let (got, d) ← (d.emit (.ldloc slot)).value site value
  if got ≠ type.valueType then
    .error (d.stop ((Fault.referentMismatch name (site.showType type.valueType)
      (site.showType got)).at span))
  else .ok (d.emit (.stind (site.builtins.elementKind type.cls)))

/-- `name = value` or `name: type = value` on a local, which may be new. -/
def assignLocal (d : Draft) (site : Site) (name : String) (span : Span)
    (typeName : Option String) (value : Expr) : Except Stop Draft := do
  let declared ← match typeName with
    | some text => (d.check ((site.scope d.locals).resolveType text span)).map some
    | none => .ok none
  let (got, d) ← d.value site value
  let type := declared.getD got
  if type ≠ got then
    .error (d.stop ((Fault.declarationMismatch name (site.showType type)
      (site.showType got)).at span))
  else
    let (slot, d) ← d.bind site name type span
    .ok (d.emit (.stloc slot))

/-- Without a type, a name that is no local may be a field, and a local may hold an address. -/
def assign (d : Draft) (site : Site) (name : String) (span : Span) (typeName : Option String)
    (value : Expr) : Except Stop Draft :=
  match typeName, d.locals.find? name with
  | none, none =>
    match (site.scope d.locals).field? name with
    | some f => d.assignField site f span value
    | none => d.assignLocal site name span none value
  | none, some (slot, type) =>
    if type.isAddress then d.assignThrough site name span slot type value
    else d.assignLocal site name span none value
  | some text, _ => d.assignLocal site name span (some text) value

/-- An expression as a statement. What is no call is useless. -/
def exprStmt (d : Draft) (site : Site) (e : Expr) : Except Stop Draft := do
  let d := if e.isCall || site.options.muteUselessCode then d else d.warn .uselessCode e.span
  if !e.isCall && site.options.trimUselessCode then .ok d
  else
    let (type, d) ← d.expr site e
    .ok (if type.cls = site.builtins.void then d else d.emit .pop)

def returnStmt (d : Draft) (site : Site) (value : Option Expr) (span : Span) :
    Except Stop Draft := do
  let wanted := site.sig.returnType
  match value with
  | some e =>
    let (got, d) ← d.expr site e
    if got ≠ wanted then
      .error (d.stop ((Fault.returnMismatch site.sig.name (site.showType wanted)
        (site.showType got)).at e.span))
    else .ok (d.emit (.ret (got.cls != site.builtins.void)))
  | none =>
    if site.returnsVoid then .ok (d.emit (.ret false))
    else .error (d.stop ((Fault.bareReturn site.sig.name (site.showType wanted)).at span))

/-- Adds the segment of an arm and emits its condition with a branch there. -/
def condition (d : Draft) (site : Site) (a : Arm) : Except Stop (Nat × Draft) := do
  let (segment, d) := d.spawnFresh "Cond" false
  let (_, d) ← d.value site a.condition
  .ok (segment, d.branch .brtrue segment)

def conditions (d : Draft) (site : Site) : List Arm → Except Stop (List Nat × Draft)
  | [] => .ok ([], d)
  | a :: rest => do
    let (segment, d) ← d.condition site a
    let (segments, d) ← d.conditions site rest
    .ok (segment :: segments, d)

/-- Joins the segment after a condition, unless control has left already. -/
def join (d : Draft) (after : Nat) : Draft := if d.fallsThrough then d.branch .br after else d

/-- What happens to a statement that comes next: it is emitted into the draft, or it is left out
with all that follow it in its block. Dead code is reported unless it is inside reported code; it
goes into a segment of its own. -/
def admit? (d : Draft) (site : Site) (span : Span) : Draft × Bool :=
  if !d.isDead then (d, true)
  else
    let s := d.segment d.current
    if s.isMuted then (if s.isTerminated then d.enterUnreachable else d, true)
    else
      let d := if site.options.muteUnreachableCode then d else d.warn .unreachableCode span
      if site.options.trimUnreachableCode then (d, false) else (d.enterUnreachable, true)

mutual

def stmt (d : Draft) (site : Site) : Stmt → Except Stop Draft
  | .expr e => d.exprStmt site e
  | .declare name nameSpan typeName _ => d.declare site name nameSpan typeName
  | .assign name nameSpan typeName value _ => d.assign site name nameSpan typeName value
  | .ret value span => d.returnStmt site value span
  | .loop condition (.mk body _) _ => do
    let (cond, d) := d.spawnFresh "Cond" false
    let (after, d) := d.spawnFresh "AfterCond" false
    let (_, d) ← ((d.branch .br cond).switchTo cond).value site condition
    let d ← (d.branch .brfalse after).stmts site body
    .ok ((d.join cond).switchTo after)
  | .cond first rest otherwise _ => do
    let (after, d) := d.spawnFresh "AfterCond" false
    let (segment, d) ← d.condition site first
    let (segments, d) ← d.conditions site rest
    let d ← match otherwise with
      | some (.mk body _) => d.stmts site body
      | none => .ok d
    let d ← (d.join after).arm site after segment first
    let d ← d.arms site after segments rest
    .ok (d.switchTo after)

def arm (d : Draft) (site : Site) (after segment : Nat) : Arm → Except Stop Draft
  | .mk _ (.mk body _) _ => do
    let d ← (d.switchTo segment).stmts site body
    .ok (d.join after)

def arms (d : Draft) (site : Site) (after : Nat) : List Nat → List Arm → Except Stop Draft
  | segment :: segments, a :: rest => do
    let d ← d.arm site after segment a
    d.arms site after segments rest
  | _, _ => .ok d

def stmts (d : Draft) (site : Site) : List Stmt → Except Stop Draft
  | [] => .ok d
  | s :: rest => do
    let (d, admitted) := d.admit? site s.span
    if admitted then
      let d ← d.stmt site s
      d.stmts site rest
    else .ok d

end

end Draft
end ClassAsm
