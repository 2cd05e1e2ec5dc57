import ClassAsm.Proofs.Code.Parts
import ClassAsm.Proofs.Draft.Segments

/-! Expressions compiled in place. Instructions are emitted one after the other into the draft, as
soon as they are known: those of the left operand before the operator is looked up, those of an
argument before the next one is compiled. Along with the draft goes the list of the fields whose
defaults are being compiled. A failure ends all of it, and leaves what has been emitted. This comes to
the same as emitting the code of the whole expression where there is one, and to the same failure
where there is none. -/

namespace ClassAsm

/-- A draft, and the fields whose defaults are being compiled. -/
structure Bench where
  draft : Draft
  inlining : List String

def Bench.emitAll (b : Bench) (code : List Instruction) : Bench :=
  { b with draft := b.draft.emitAll code }

/-- A piece of work on a bench. What it did before a failure stays done. -/
def Lowering (α : Type) : Type := Bench → Except Failure α × Bench

namespace Lowering

variable {α β : Type}

/-- Goes on from where the work ended, unless it failed. -/
def andThen (m : Lowering α) (f : α → Lowering β) : Lowering β := fun b =>
  match m b with
  | (.ok a, b) => f a b
  | (.error failure, b) => (.error failure, b)

instance : Monad Lowering where
  pure a := fun b => (.ok a, b)
  bind := andThen

def on (m : Lowering α) (d : Draft) : Except Stop (α × Draft) :=
  let x := m ⟨d, []⟩
  (d.check x.1).map (·, x.2.draft)

def fail (failure : Failure) : Lowering α := fun b => (.error failure, b)

def emit (code : List Instruction) : Lowering Unit := fun b => (.ok (), b.emitAll code)

def ask (site : Site) (f : Scope → Except Failure α) : Lowering α := fun b =>
  (f (site.scope b.draft.locals), b)

/-- The default of a field, if it is not being compiled already. -/
def openDefault (unknown : Failure) (f : Field) : Lowering Expr := fun b =>
  (if f.name ∈ b.inlining then .error unknown else f.default.elim (.error unknown) .ok, b)

/-- Puts a field on the list, and takes it off behind, also on a failure. -/
def inside (name : String) (m : Lowering α) : Lowering α := fun b =>
  let (r, b) := m { b with inlining := name :: b.inlining }
  (r, { b with inlining := b.inlining.tail })

end Lowering

/-- The method for an operation, and the instructions that apply it. -/
def Scope.application (s : Scope) (operand : TypeRef) (op : Operation) (span : Span) :
    Except Failure (Signature × List Instruction) :=
  (s.operator operand op span).map fun m => (m.sig, s.useOperator m)

/-- The type that a cast leads to, and what it does to the number on the stack. -/
def Scope.conversion (s : Scope) (type : TypeRef) (target : String) (targetSpan span : Span) :
    Except Failure (TypeRef × NumberKind) := do
  let wanted ← s.resolveType target targetSpan
  match s.builtins.numeric? type.cls, s.builtins.numeric? wanted.cls, wanted.isAddress with
  | some _, some n, false => .ok (wanted, n.kind)
  | _, _, _ => .error ((Fault.noCast (s.showType type) (s.showType wanted)).at span)

/-- Calls a method whose arguments are on the stack, behind its receiver if it has one. -/
def Scope.callInstruction (s : Scope) (sig : Signature) : Instruction :=
  let receivers := if sig.takesReceiver then 1 else 0
  .call (s.registry.callTarget sig) (receivers + sig.params.length) (s.pushes sig.returnType)

namespace Site

open Lowering

def put (site : Site) (f : Scope → Code) : Lowering TypeRef := do
  let c ← ask site fun s => .ok (f s)
  emit c.instructions
  pure c.type

def needed (site : Site) (e : Expr) (m : Lowering TypeRef) : Lowering TypeRef := do
  let type ← m
  ask site fun s => if s.isVoid type then .error (Fault.noValue.at e.span) else .ok type

/-- Fills the place of an instance field that has no receiver, or gives the failure. -/
abbrev Fill := Failure → Field → Lowering Unit

def lowerField (site : Site) (fill : Fill) (unknown : Failure) (f : Field) : Lowering TypeRef := do
  let hasReceiver ← ask site fun s => .ok s.hasReceiver
  if f.isStatic then
    site.put fun s => ⟨[.ldsfld (s.registry.fieldTarget s.owner f)], f.type⟩
  else if hasReceiver then
    site.put fun s => ⟨[.ldarg 0, .ldfld (s.registry.fieldTarget s.owner f)], f.type⟩
  else do
    fill unknown f
    pure f.type

def lowerName (site : Site) (fill : Fill) (name : String) (span : Span) : Lowering TypeRef := do
  match ← ask site fun s => .ok (s.locals.find? name) with
  | some (slot, type) => site.put fun s => s.loadLocal slot type
  | none => do
    let unknown := (Fault.unknownVariable name).at span
    let f ← ask site fun s => (s.field? name).elim (.error unknown) .ok
    site.lowerField fill unknown f

/-- The right operand of an operation, for its second parameter. -/
def lowerRight (site : Site) (operand : TypeRef) (op : Operation) (sig : Signature) (right : Expr)
    (m : Lowering TypeRef) : Lowering Unit := do
  let got ← site.needed right m
  let wanted := ((sig.params[1]?).map (·.2)).getD operand
  ask site fun s => if got ≠ wanted then
    .error ((Fault.operandMismatch op (s.showType operand) (s.showType wanted)
      (s.showType got)).at right.span) else .ok ()

/-- Applies an operation to the operand on the stack, and to a right one, which is compiled when the
method is known. -/
def lowerOperation (site : Site) (operand : TypeRef) (op : Operation) (span : Span)
    (right : Signature → Lowering Unit) : Lowering TypeRef := do
  let (sig, code) ← ask site (·.application operand op span)
  right sig
  emit code
  pure sig.returnType

def lowerUnary (site : Site) (type : TypeRef) (span : Span) : UnaryOp → Lowering TypeRef
  | .not => site.lowerOperation type .not span fun _ => pure ()
  | sign => do
    ask site fun s => if s.builtins.isNumeric type.cls then .ok () else
      .error ((Fault.noNegation (s.showType type)).at span)
    emit (if sign = .neg then [.neg] else [])
    pure type

/-- An argument of a call, by its address or by its value. -/
def lowerArg (site : Site) (callee param : String) (type : TypeRef) (arg : Expr)
    (m : Lowering TypeRef) : Lowering Unit :=
  if type.isAddress then do
    let code ← ask site (·.addressArgument callee param type arg)
    emit code
  else do
    let got ← site.needed arg m
    ask site fun s => if got = type then .ok () else
      .error ((Fault.argumentMismatch param callee (s.showType type) (s.showType got)).at arg.span)

mutual

def lowerWith (site : Site) (fill : Fill) : Expr → Lowering TypeRef
  | .int v _ => site.put (·.intCode v)
  | .float v _ => site.put (·.floatCode v)
  | .str v _ => site.put fun s => ⟨[.ldstr v], { cls := s.builtins.string }⟩
  | .ident name span => site.lowerName fill name span
  | .binary op left right span => do
    let operand ← site.needed left (site.lowerWith fill left)
    let type ← site.lowerOperation operand op.operation span fun sig =>
      site.lowerRight operand op.operation sig right (site.lowerWith fill right)
    emit (if op = .ne then [.ldcI4 0, .arith .ceq] else [])
    pure type
  | .unary op operand span => do
    let type ← site.needed operand (site.lowerWith fill operand)
    site.lowerUnary type span op
  | .call callee nameSpan args _ => do
    let sig ← ask site (·.callee callee nameSpan)
    emit (if sig.takesReceiver then [.ldarg 0] else [])
    ask site fun _ => if args.length ≠ sig.params.length then
      .error ((Fault.argumentCount callee sig.params.length args.length).at nameSpan) else .ok ()
    site.lowerArgs fill callee args sig.params
    site.put fun s => ⟨[s.callInstruction sig], sig.returnType⟩
  | .cast operand target targetSpan span => do
    let type ← site.needed operand (site.lowerWith fill operand)
    let (wanted, kind) ← ask site (·.conversion type target targetSpan span)
    emit [.conv kind]
    pure wanted

def lowerArgs (site : Site) (fill : Fill) (callee : String) :
    List Expr → List (String × TypeRef) → Lowering Unit
  | arg :: args, (param, type) :: params => do
    site.lowerArg callee param type arg (site.lowerWith fill arg)
    site.lowerArgs fill callee args params
  | _, _ => pure ()

end

def fillWith (site : Site) (lower : Expr → Lowering TypeRef) : Fill := fun unknown f => do
  let default ← openDefault unknown f
  let got ← inside f.name (site.needed default (lower default))
  ask site fun s => if got = f.type then .ok () else
    .error ((Fault.defaultMismatch f.name (s.showType f.type) (s.showType got)).at default.span)

def lowerInside (site : Site) : Nat → Expr → Lowering TypeRef
  | 0 => site.lowerWith fun unknown _ => fail unknown
  | n + 1 => site.lowerWith (site.fillWith (site.lowerInside n))

/-- No more defaults are nested than the class has fields. -/
def lower (site : Site) (e : Expr) : Lowering TypeRef :=
  site.lowerInside ((site.registry.class? site.owner).elim [] (·.fields)).length e

end Site

namespace Bench

variable {b : Bench}

theorem emitAll_append (c c' : List Instruction) :
    b.emitAll (c ++ c') = (b.emitAll c).emitAll c' := by
  rw [emitAll, Draft.emitAll_append]
  rfl

@[simp] theorem locals_emitAll (c : List Instruction) :
    (b.emitAll c).draft.locals = b.draft.locals := Draft.locals_emitAll c

end Bench

namespace Lowering

variable {α β : Type} {l : Locals} {inlining : List String} {site : Site} {failure : Failure}
  {code code' : List Instruction} {m : Lowering α} {f : α → Lowering β} {a : α} {b : β}
  {r : Except Failure β}

/-- With these locals, and inside of the defaults of these fields, the work comes to this end and
emits this code, whatever else the draft is. -/
def Does (m : Lowering α) (l : Locals) (inlining : List String) (r : Except Failure α)
    (code : List Instruction) : Prop :=
  ∀ b : Bench, b.draft.locals = l → b.inlining = inlining → m b = (r, b.emitAll code)

theorem does_pure : (pure a : Lowering α).Does l inlining (.ok a) [] := fun _ _ _ => rfl

theorem does_fail : (fail failure : Lowering α).Does l inlining (.error failure) [] :=
  fun _ _ _ => rfl

theorem does_emit : (emit code).Does l inlining (.ok ()) code := fun _ _ _ => rfl

theorem does_ask {g : Scope → Except Failure α} {r : Except Failure α}
    (known : g (site.scope l) = r) : (ask site g).Does l inlining r [] := by
  rintro b rfl -
  rw [← known]
  rfl

theorem does_openDefault {f : Field} : (openDefault failure f).Does l inlining
    (if f.name ∈ inlining then .error failure else f.default.elim (.error failure) .ok) [] := by
  rintro b - rfl
  rfl

theorem Does.bind (h : m.Does l inlining (.ok a) code) (h' : (f a).Does l inlining r code') :
    (m >>= f).Does l inlining r (code ++ code') := by
  intro b hl hi
  have first := h b hl hi
  have second := h' (b.emitAll code) (by rw [Bench.locals_emitAll, hl]) hi
  rw [← Bench.emitAll_append] at second
  change andThen m f b = _
  rw [andThen, first]
  exact second

theorem Does.stop (h : m.Does l inlining (.error failure) code) :
    (m >>= f).Does l inlining (.error failure) code := by
  intro b hl hi
  change andThen m f b = _
  rw [andThen, h b hl hi]

theorem Does.inside {name : String} {r : Except Failure α}
    (h : m.Does l (name :: inlining) r code) : (inside name m).Does l inlining r code := by
  rintro b hl rfl
  have done := h { b with inlining := name :: b.inlining } hl rfl
  unfold Lowering.inside
  rw [done]
  rfl

theorem Does.check (h : m.Does l inlining (.ok a) code) (h' : (f a).Does l inlining r []) :
    (m >>= f).Does l inlining r code := by
  simpa using h.bind h'

theorem Does.ask {g : Scope → Except Failure α} (known : g (site.scope l) = .ok a)
    (h : (f a).Does l inlining r code) : (Lowering.ask site g >>= f).Does l inlining r code :=
  (does_ask known).bind h

theorem Does.ask_stop {g : Scope → Except Failure α} (known : g (site.scope l) = .error failure) :
    (Lowering.ask site g >>= f).Does l inlining (.error failure) [] := (does_ask known).stop

/-- The work has this outcome: it emits the code that there is, or ends with the failure. -/
def Renders (m : Lowering α) (l : Locals) (inlining : List String) :
    Except Failure (α × List Instruction) → Prop
  | .ok (a, code) => m.Does l inlining (.ok a) code
  | .error failure => ∃ code, m.Does l inlining (.error failure) code

theorem Renders.imp {γ : Type} {m : Lowering γ} {m' : Lowering γ} {inlining' : List String}
    {x : Except Failure (γ × List Instruction)}
    (h : ∀ {r code}, m.Does l inlining r code → m'.Does l inlining' r code)
    (hm : m.Renders l inlining x) : m'.Renders l inlining' x := by
  cases x with
  | error failure => exact Exists.imp (fun _ => h) hm
  | ok => exact h hm

/-- A failure ends the work; otherwise what it gives is known. -/
theorem Renders.bind {κ μ : Type} {v : κ → α × List Instruction} {w : μ → β × List Instruction}
    {x : Except Failure κ} {y : κ → Except Failure μ} (h : m.Renders l inlining (x.map v))
    (next : ∀ c, m.Does l inlining (.ok (v c).1) (v c).2 →
      (m >>= f).Renders l inlining ((y c).map w)) :
    (m >>= f).Renders l inlining ((x >>= y).map w) := by
  cases x with
  | error failure =>
    obtain ⟨code, h⟩ := h
    exact ⟨code, h.stop⟩
  | ok c => exact next c h

end Lowering

/-- The type and the instructions of a piece of code. -/
def Code.split (c : Code) : TypeRef × List Instruction := (c.type, c.instructions)

namespace Scope

variable {s : Scope} {standIn : StandIn}

/-- The code of a right operand, for the second parameter of the method. -/
def rightCode (s : Scope) (operand : TypeRef) (op : Operation) (m : Method) (right : Expr)
    (code : Except Failure Code) : Except Failure (List Instruction) := do
  let r ← code >>= s.needValue right.span
  let wanted := ((m.sig.params[1]?).map (·.2)).getD operand
  if r.type ≠ wanted then
    .error ((Fault.operandMismatch op (s.showType operand) (s.showType wanted)
      (s.showType r.type)).at right.span)
  else .ok r.instructions

/-- The code of an operation behind that of its operand. -/
def operationCode (s : Scope) (operand : TypeRef) (op : Operation) (span : Span)
    (right : Method → Except Failure (List Instruction)) : Except Failure Code := do
  let m ← s.operator operand op span
  let given ← right m
  .ok ⟨given ++ s.useOperator m, m.sig.returnType⟩

/-- The code of a unary operator behind that of its operand. -/
def signCode (s : Scope) (type : TypeRef) (span : Span) : UnaryOp → Except Failure Code
  | .not => s.operationCode type .not span fun _ => .ok []
  | sign =>
    if s.builtins.isNumeric type.cls then .ok ⟨if sign = .neg then [.neg] else [], type⟩
    else .error ((Fault.noNegation (s.showType type)).at span)

theorem codeWith_binary (op : BinaryOp) (left right : Expr) (span : Span) :
    s.codeWith standIn (.binary op left right span) = (do
      let l ← s.codeWith standIn left >>= s.needValue left.span
      let c ← s.operationCode l.type op.operation span fun m =>
        s.rightCode l.type op.operation m right (s.codeWith standIn right)
      .ok ⟨l.instructions ++ (c.instructions ++ if op = .ne then [.ldcI4 0, .arith .ceq] else []),
        c.type⟩) := by
  simp only [codeWith, operationCode, rightCode, bind_assoc, ok_bind]
  refine bind_congr fun _ => bind_congr fun l => bind_congr fun m => bind_congr fun _ =>
    bind_congr fun r => ?_
  split
  · rfl
  · simp only [ok_bind, List.append_assoc]

theorem codeWith_unary (op : UnaryOp) (operand : Expr) (span : Span) :
    s.codeWith standIn (.unary op operand span) = (do
      let c ← s.codeWith standIn operand >>= s.needValue operand.span
      let c' ← s.signCode c.type span op
      .ok ⟨c.instructions ++ c'.instructions, c'.type⟩) := by
  simp only [codeWith, bind_assoc]
  refine bind_congr fun _ => bind_congr fun c => ?_
  cases op with
  | not => simp only [signCode, operationCode, bind_assoc, ok_bind, List.nil_append]
  | neg | pos =>
    simp only [signCode]
    split <;> rfl

theorem codeWith_cast (operand : Expr) (target : String) (targetSpan span : Span) :
    s.codeWith standIn (.cast operand target targetSpan span) = (do
      let c ← s.codeWith standIn operand >>= s.needValue operand.span
      let (wanted, kind) ← s.conversion c.type target targetSpan span
      .ok ⟨c.instructions ++ [.conv kind], wanted⟩) := by
  simp only [codeWith, conversion, bind_assoc]
  refine bind_congr fun _ => bind_congr fun c => bind_congr fun wanted => ?_
  cases s.builtins.numeric? c.type.cls <;> cases s.builtins.numeric? wanted.cls <;>
    cases wanted.isAddress <;> rfl

theorem instructions_callCode (s : Scope) (sig : Signature) (given : List Instruction) :
    (s.callCode sig given).instructions =
      (if sig.takesReceiver then [.ldarg 0] else []) ++ (given ++ [s.callInstruction sig]) := by
  rw [callCode, callInstruction]
  cases sig.takesReceiver <;> simp

end Scope

namespace Site

open Lowering

variable {site : Site} {l : Locals} {inlining : List String} {fill : Fill} {standIn : Scope.StandIn}
  {m : Lowering TypeRef} {x : Except Failure Code} {e : Expr} {type : TypeRef} {span : Span}

abbrev Gives (m : Lowering TypeRef) (l : Locals) (inlining : List String)
    (x : Except Failure Code) : Prop := m.Renders l inlining (x.map Code.split)

abbrev Places (m : Lowering Unit) (l : Locals) (inlining : List String)
    (x : Except Failure (List Instruction)) : Prop := m.Renders l inlining (x.map ((), ·))

theorem put_does (f : Scope → Code) : (site.put f).Does l inlining (.ok (f (site.scope l)).type)
    (f (site.scope l)).instructions := Does.ask rfl (does_emit.check does_pure)

theorem needed_gives (h : Gives m l inlining x) :
    Gives (site.needed e m) l inlining (x >>= (site.scope l).needValue e.span) := by
  refine Renders.bind h fun c first => ?_
  unfold Scope.needValue
  split
  · next void => exact ⟨_, first.check (does_ask (if_pos void))⟩
  · next value => exact first.check (does_ask (if_neg value))

/-- What is put in the place of a field is what stands for it. -/
def Fills (fill : Fill) (l : Locals) (inlining : List String) (standIn : Scope.StandIn) : Prop :=
  ∀ unknown f, Places (fill unknown f) l inlining ((standIn f).getD (.error unknown))

theorem lowerField_gives (site : Site) (fills : Fills fill l inlining standIn) (unknown : Failure) (f : Field) :
    Gives (site.lowerField fill unknown f) l inlining
      (let s := site.scope l
      if f.isStatic then .ok ⟨[.ldsfld (s.registry.fieldTarget s.owner f)], f.type⟩
      else if s.hasReceiver then
        .ok ⟨[.ldarg 0, .ldfld (s.registry.fieldTarget s.owner f)], f.type⟩
      else match standIn f with
        | none => .error unknown
        | some code => code.map fun instructions => ⟨instructions, f.type⟩) := by
  unfold lowerField
  have asked {r : Except Failure TypeRef} {code : List Instruction} {k : Bool → Lowering TypeRef}
      (h : (k (site.scope l).hasReceiver).Does l inlining r code) :
      (Lowering.ask site (fun s => .ok s.hasReceiver) >>= k).Does l inlining r code := Does.ask rfl h
  split
  · exact asked (put_does _)
  dsimp only
  split
  · next receiver => exact asked (by rw [if_pos receiver]; exact put_does _)
  next bare =>
  have filled := fills unknown f
  cases stands : standIn f with
  | none =>
    rw [stands] at filled
    obtain ⟨code, filled⟩ := filled
    exact ⟨code, asked (by rw [if_neg bare]; exact filled.stop)⟩
  | some code =>
    rw [stands] at filled
    cases code with
    | error failure =>
      obtain ⟨code, filled⟩ := filled
      exact ⟨code, asked (by rw [if_neg bare]; exact filled.stop)⟩
    | ok code => exact asked (by rw [if_neg bare]; exact filled.check does_pure)

theorem lowerName_gives (fills : Fills fill l inlining standIn) (name : String) (span : Span) :
    Gives (site.lowerName fill name span) l inlining
      ((site.scope l).nameCode standIn name span) := by
  unfold Scope.nameCode lowerName
  cases slot : (site.scope l).locals.find? name with
  | some found => exact Does.ask (congrArg _ slot) (put_does _)
  | none =>
    have unbound {r : Except Failure TypeRef} {code : List Instruction} {k : _ → Lowering TypeRef}
        (h : (k none).Does l inlining r code) :
        (Lowering.ask site (fun s => .ok (s.locals.find? name)) >>= k).Does l inlining r code :=
      Does.ask (congrArg Except.ok slot) h
    cases field : (site.scope l).field? name with
    | none => exact ⟨_, unbound (Does.ask_stop (congrArg (Option.elim · _ _) field))⟩
    | some f =>
      have given := lowerField_gives site fills ((Fault.unknownVariable name).at span) f
      exact Renders.imp (fun h => unbound (Does.ask (congrArg (Option.elim · _ _) field) h)) given

theorem lowerRight_places {op : Operation} {right : Expr} (h : Gives m l inlining x)
    (method : Method) : Places (site.lowerRight type op method.sig right m) l inlining
      ((site.scope l).rightCode type op method right x) := by
  unfold lowerRight Scope.rightCode
  refine Renders.bind (needed_gives h) fun c value => ?_
  dsimp only
  split
  · next other => exact ⟨_, value.check (does_ask (if_pos other))⟩
  · next same => exact value.check (does_ask (if_neg same))

theorem lowerOperation_gives {op : Operation} {right : Signature → Lowering Unit}
    {given : Method → Except Failure (List Instruction)}
    (h : ∀ m, Places (right m.sig) l inlining (given m)) :
    Gives (site.lowerOperation type op span right) l inlining
      ((site.scope l).operationCode type op span given) := by
  unfold lowerOperation Scope.operationCode
  cases found : (site.scope l).operator type op span with
  | error failure => exact ⟨_, Does.ask_stop (congrArg (Except.map _) found)⟩
  | ok m =>
    have placed := h m
    rw [ok_bind]
    cases code : given m with
    | error failure =>
      rw [code] at placed
      obtain ⟨code, placed⟩ := placed
      exact ⟨code, Does.ask (congrArg (Except.map _) found) placed.stop⟩
    | ok code' =>
      rw [code] at placed
      exact Does.ask (congrArg (Except.map _) found)
        (Does.bind placed (does_emit.check does_pure))

theorem lowerUnary_gives (op : UnaryOp) : Gives (site.lowerUnary type span op) l inlining
    ((site.scope l).signCode type span op) := by
  cases op with
  | not =>
    change Gives (site.lowerOperation type .not span fun _ => pure ()) l inlining _
    exact lowerOperation_gives fun _ => does_pure
  | neg | pos =>
    dsimp only [lowerUnary, Scope.signCode]
    by_cases numeric : (site.scope l).builtins.isNumeric type.cls = true
    · rw [if_pos numeric]
      exact Does.ask (if_pos numeric) (does_emit.check does_pure)
    · rw [if_neg numeric]
      exact ⟨_, Does.ask_stop (if_neg numeric)⟩

theorem lowerArg_places {callee param : String} {arg : Expr} (h : Gives m l inlining x) :
    Places (site.lowerArg callee param type arg m) l inlining
      (if type.isAddress then (site.scope l).addressArgument callee param type arg
      else (site.scope l).passCode callee param type arg x) := by
  unfold lowerArg
  split
  · cases address : (site.scope l).addressArgument callee param type arg with
    | error failure => exact ⟨_, Does.ask_stop address⟩
    | ok code => exact Does.ask address does_emit
  rw [Scope.passCode, ← bind_assoc]
  refine Renders.bind (needed_gives h) fun c value => ?_
  split
  · next same => exact value.check (does_ask (if_pos same))
  · next other => exact ⟨_, value.check (does_ask (if_neg other))⟩

mutual

/-- Lowering gives the code of an expression, where the defaults do so that are put in the place of
fields. -/
theorem lowerWith_gives (fills : Fills fill l inlining standIn) : ∀ e : Expr,
    Gives (site.lowerWith fill e) l inlining ((site.scope l).codeWith standIn e)
  | .int v _ => by
    rw [lowerWith, Scope.codeWith]
    exact put_does _
  | .float v _ => by
    rw [lowerWith, Scope.codeWith]
    exact put_does _
  | .str v _ => by
    rw [lowerWith, Scope.codeWith]
    exact put_does _
  | .ident name span => by
    rw [lowerWith, Scope.codeWith]
    exact lowerName_gives fills name span
  | .binary op left right span => by
    rw [lowerWith, Scope.codeWith_binary]
    refine Renders.bind (needed_gives (lowerWith_gives fills left)) fun c first => ?_
    have applied : Gives (site.lowerOperation c.type op.operation span
        (site.lowerRight c.type op.operation · right (site.lowerWith fill right))) l inlining _ :=
      lowerOperation_gives (lowerRight_places (lowerWith_gives fills right))
    generalize (site.scope l).operationCode c.type op.operation span _ = x at applied ⊢
    cases x with
    | error failure =>
      obtain ⟨code, applied⟩ := applied
      exact ⟨_, first.bind applied.stop⟩
    | ok c' => exact first.bind (Does.bind applied (does_emit.check does_pure))
  | .unary op operand span => by
    rw [lowerWith, Scope.codeWith_unary]
    refine Renders.bind (needed_gives (lowerWith_gives fills operand)) fun c first => ?_
    have applied : Gives (site.lowerUnary c.type span op) l inlining _ := lowerUnary_gives op
    generalize (site.scope l).signCode c.type span op = x at applied ⊢
    cases x with
    | error failure =>
      obtain ⟨code, applied⟩ := applied
      exact ⟨_, first.bind applied⟩
    | ok c' => exact first.bind applied
  | .cast operand target targetSpan span => by
    rw [lowerWith, Scope.codeWith_cast]
    refine Renders.bind (needed_gives (lowerWith_gives fills operand)) fun c first => ?_
    cases converts : (site.scope l).conversion c.type target targetSpan span with
    | error failure => exact ⟨_, first.bind (Does.ask_stop converts)⟩
    | ok reached => exact first.bind (Does.ask converts (does_emit.check does_pure))
  | .call callee nameSpan args span => by
    rw [lowerWith, Scope.codeWith]
    cases found : (site.scope l).callee callee nameSpan with
    | error failure => exact ⟨_, Does.ask_stop found⟩
    | ok sig =>
      rw [ok_bind]
      by_cases length : args.length ≠ sig.params.length
      · rw [if_pos length]
        exact ⟨_, Does.ask found (does_emit.bind (Does.ask_stop (if_pos length)))⟩
      rw [if_neg length]
      have given := lowerArgs_places fills callee args sig.params
      generalize (site.scope l).argsWith standIn callee args sig.params = x at given ⊢
      cases x with
      | error failure =>
        obtain ⟨code, given⟩ := given
        exact ⟨_, Does.ask found (does_emit.bind (Does.ask (if_neg length) given.stop))⟩
      | ok code =>
        change Does _ _ _ (.ok sig.returnType) ((site.scope l).callCode sig code).instructions
        rw [Scope.instructions_callCode]
        exact Does.ask found (does_emit.bind (Does.ask (if_neg length)
          (Does.bind given (put_does _))))

theorem lowerArgs_places (fills : Fills fill l inlining standIn) (callee : String) :
    ∀ (args : List Expr) (params : List (String × TypeRef)),
    Places (site.lowerArgs fill callee args params) l inlining
      ((site.scope l).argsWith standIn callee args params)
  | [], _ => by
    rw [lowerArgs, Scope.argsWith]
    · exact does_pure
    · simp
    · simp
  | _ :: _, [] => by
    rw [lowerArgs, Scope.argsWith]
    · exact does_pure
    · simp
    · simp
  | arg :: args, (param, type) :: params => by
    rw [lowerArgs, Scope.argsWith_cons]
    have here : Places (site.lowerArg callee param type arg (site.lowerWith fill arg)) l inlining _ :=
      lowerArg_places (lowerWith_gives fills arg)
    have same : (site.scope l).argCode standIn callee param type arg =
        if type.isAddress then (site.scope l).addressArgument callee param type arg
        else (site.scope l).passCode callee param type arg ((site.scope l).codeWith standIn arg) := rfl
    rw [same]
    refine Renders.bind here fun code first => ?_
    have rest := lowerArgs_places fills callee args params
    generalize (site.scope l).argsWith standIn callee args params = x at rest ⊢
    cases x with
    | error failure =>
      obtain ⟨code, rest⟩ := rest
      exact ⟨_, first.bind rest⟩
    | ok code' => exact first.bind rest

end

theorem fills_fillWith {lower : Expr → Lowering TypeRef} {code : String → Expr → Except Failure Code}
    (h : ∀ name default, Gives (lower default) l (name :: inlining) (code name default)) :
    Fills (site.fillWith lower) l inlining fun f =>
      if f.name ∈ inlining then none
      else f.default.map fun default => (site.scope l).fill f default (code f.name default) := by
  intro unknown f
  dsimp only [fillWith]
  have opened : (openDefault unknown f).Does l inlining _ [] := does_openDefault
  by_cases nested : f.name ∈ inlining
  · rw [if_pos nested] at opened ⊢
    exact ⟨_, opened.stop⟩
  rw [if_neg nested] at opened ⊢
  cases stored : f.default with
  | none =>
    rw [stored] at opened
    exact ⟨_, opened.stop⟩
  | some default =>
    rw [stored] at opened
    refine Renders.imp opened.bind ?_
    change Places _ l inlining ((site.scope l).fill f default (code f.name default))
    rw [Scope.fill, ← bind_assoc]
    have value : Gives (inside f.name (site.needed default (lower default))) l inlining _ :=
      Renders.imp Does.inside (needed_gives (h f.name default))
    refine Renders.bind value fun c value => ?_
    split
    · next same => exact value.check (does_ask (if_pos same))
    · next other => exact ⟨_, value.check (does_ask (if_neg other))⟩

theorem fills_fail : Fills (fun unknown _ => fail unknown) l inlining fun _ => none :=
  fun _ _ => ⟨[], does_fail⟩

theorem lowerInside_gives (n : Nat) (inlining : List String) (e : Expr) :
    Gives (site.lowerInside n e) l inlining ((site.scope l).codeInside n inlining e) := by
  induction n generalizing inlining e with
  | zero => exact lowerWith_gives fills_fail e
  | succ n ih => exact lowerWith_gives (fills_fillWith fun name => ih (name :: inlining)) e

/-- Lowering gives the code of an expression inside of the defaults of the given fields. -/
theorem lower_gives (inlining : List String) (e : Expr) :
    Gives (site.lower e) l inlining ((site.scope l).codeAmid inlining e) := by
  have room : ((site.scope l).openFields inlining).length ≤
      ((site.registry.class? site.owner).elim [] (·.fields)).length := List.length_filter_le _ _
  rw [Scope.codeAmid_eq, ← Scope.codeInside_eq room]
  exact lowerInside_gives _ _ _

theorem on_of_gives {d : Draft} (h : Gives m d.locals [] x) :
    m.on d = (d.check x).map fun c => (c.type, d.emitAll c.instructions) := by
  unfold Lowering.on
  cases x with
  | error failure =>
    obtain ⟨code, h⟩ := h
    rw [h ⟨d, []⟩ rfl rfl]
    rfl
  | ok c =>
    rw [h ⟨d, []⟩ rfl rfl]
    rfl

/-- Compiling an expression is lowering it. -/
theorem expr_eq_lower (site : Site) (d : Draft) (e : Expr) :
    d.expr site e = (site.lower e).on d := by
  rw [on_of_gives (lower_gives [] e), Draft.expr, Scope.code_eq_codeAmid]
  cases (site.scope d.locals).codeAmid [] e <;> rfl

theorem value_eq_lower (site : Site) (d : Draft) (e : Expr) :
    d.value site e = (site.needed e (site.lower e)).on d := by
  rw [on_of_gives (needed_gives (lower_gives [] e)), Draft.value, Scope.valueCode,
    Scope.code_eq_codeAmid]
  cases (site.scope d.locals).codeAmid [] e >>= (site.scope d.locals).needValue e.span <;> rfl

end Site

end ClassAsm
