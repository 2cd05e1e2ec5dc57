import ClassAsm.Proofs.Code.Lowering
import ClassAsm.Proofs.Registry.Declared

/-! Expressions compile alike in any position. What an expression is lowered to goes to the end of
the current segment, without branches and returns, and leaves everything else of the draft as it was.
It depends on what the registry declares, on the class, on whether there is a receiver, on the locals
and on the fields whose defaults are being compiled; other segments, the height of the stack and
whether the code is dead do not matter. Two pieces of work on two sites are compared step by step, so
this holds up to the point where they fail, too. -/

namespace ClassAsm

namespace Draft

variable {d d' d'' : Draft} {code code' : List Instruction}

/-- The code is put at the end of the current segment. -/
structure Appends (d : Draft) (code : List Instruction) (d' : Draft) : Prop where
  segments : d'.segments = d.segments.modify d.current fun s =>
    { s with code := s.code ++ code.toArray }
  current : d'.current = d.current
  locals : d'.locals = d.locals
  labels : d'.labels = d.labels
  warnings : d'.warnings = d.warnings

theorem appends_nil (d : Draft) : d.Appends [] d where
  segments := by
    refine Array.ext_getElem? fun i => ?_
    rw [Array.getElem?_modify]
    split <;> simp
  current := rfl
  locals := rfl
  labels := rfl
  warnings := rfl

theorem Appends.emit (h : d.Appends code d') (i : Instruction) :
    d.Appends (code ++ [i]) (d'.emit i) where
  segments := by
    refine Array.ext_getElem? fun j => ?_
    rw [Draft.emit, h.segments, h.current]
    simp only [Array.getElem?_modify]
    split
    · cases d.segments[j]? with
      | none => rfl
      | some s =>
        simp only [Option.map_some, ← List.push_toArray, Array.append_push]
    · rfl
  current := h.current
  locals := h.locals
  labels := h.labels
  warnings := h.warnings

theorem appends_emitAll (d : Draft) (code : List Instruction) : d.Appends code (d.emitAll code) := by
  suffices run : ∀ before d', d.Appends before d' → d.Appends (before ++ code) (d'.emitAll code) from
    run [] d d.appends_nil
  induction code with
  | nil => exact fun before d' h => by simpa using h
  | cons i code ih =>
    intro before d' h
    rw [List.append_cons]
    exact ih _ _ (h.emit i)

end Draft

theorem Straight.ite {p : Prop} [Decidable p] {code : List Instruction} (h : Straight code) :
    Straight (if p then code else []) := by
  split
  · exact h
  · exact .nil

namespace Scope

/-- What is read from a place does not show which methods are compiled. -/
def ReadsDeclared {κ : Type} (f : Scope → κ) : Prop := ∀ s : Scope, f s.declared = f s

/-- The same is read from two places that are declared the same. -/
theorem ReadsDeclared.eq {κ : Type} {f : Scope → κ} (h : ReadsDeclared f) {s s' : Scope}
    (same : s'.declared = s.declared) : f s' = f s := by
  rw [← h s', same, h s]

theorem openFields_declared (s : Scope) (inlining : List String) :
    s.declared.openFields inlining = s.openFields inlining :=
  congrArg (List.filter _) (s.registry.elim_declarations s.owner [] _ fun _ => rfl)

theorem application_declared (type : TypeRef) (op : Operation) (span : Span) :
    ReadsDeclared (·.application type op span) := by
  intro s
  simp only [application, operator_declared]
  cases s.operator type op span with
  | error failure => rfl
  | ok m => simp only [Except.map, useOperator_declared]; rfl

theorem conversion_declared (s : Scope) (type : TypeRef) (target : String)
    (targetSpan span : Span) : s.declared.conversion type target targetSpan span =
      s.conversion type target targetSpan span := by
  simp only [conversion, showType_declared]
  rfl

theorem callInstruction_declared (s : Scope) (sig : Signature) :
    s.declared.callInstruction sig = s.callInstruction sig := by
  rw [callInstruction, callTarget_declared]
  rfl

end Scope

namespace Lowering

variable {α β : Type} {l : Locals} {inlining : List String} {site site' : Site}
  {m m' : Lowering α} {f f' : α → Lowering β}

/-- With these locals, and inside of the defaults of these fields, both come to the same end and emit
the same code, which is straight. -/
def Alike (l : Locals) (inlining : List String) (m m' : Lowering α) : Prop :=
  ∃ r code, Straight code ∧ m.Does l inlining r code ∧ m'.Does l inlining r code

theorem alike_pure (a : α) : Alike l inlining (pure a) (pure a) :=
  ⟨_, _, .nil, does_pure, does_pure⟩

theorem alike_emit {code : List Instruction} (straight : Straight code) :
    Alike l inlining (emit code) (emit code) := ⟨_, _, straight, does_emit, does_emit⟩

theorem alike_openDefault (unknown : Failure) (f : Field) :
    Alike l inlining (openDefault unknown f) (openDefault unknown f) :=
  ⟨_, _, .nil, does_openDefault, does_openDefault⟩

theorem Alike.inside {name : String} (h : Alike l (name :: inlining) m m') :
    Alike l inlining (inside name m) (inside name m') := by
  obtain ⟨r, code, straight, first, second⟩ := h
  exact ⟨r, code, straight, first.inside, second.inside⟩

theorem Alike.bind (h : Alike l inlining m m') (next : ∀ a, Alike l inlining (f a) (f' a)) :
    Alike l inlining (m >>= f) (m' >>= f') := by
  obtain ⟨r, code, straight, first, second⟩ := h
  cases r with
  | error failure => exact ⟨_, code, straight, first.stop, second.stop⟩
  | ok a =>
    obtain ⟨r, code', straight', first', second'⟩ := next a
    exact ⟨r, code ++ code', straight.append straight', first.bind first', second.bind second'⟩

section

variable (same : (site'.scope l).declared = (site.scope l).declared)
include same

theorem alike_ask {g : Scope → Except Failure α} (reads : Scope.ReadsDeclared g) :
    Alike l inlining (ask site g) (ask site' g) :=
  ⟨_, [], .nil, does_ask rfl, does_ask (reads.eq same)⟩

theorem Alike.ask {g : Scope → Except Failure α} (reads : Scope.ReadsDeclared g)
    (next : ∀ a, g (site.scope l) = .ok a → Alike l inlining (f a) (f' a)) :
    Alike l inlining (ask site g >>= f) (Lowering.ask site' g >>= f') := by
  cases known : g (site.scope l) with
  | error failure =>
    exact ⟨_, [], .nil, Does.ask_stop known, Does.ask_stop ((reads.eq same).trans known)⟩
  | ok a =>
    obtain ⟨r, code, straight, first, second⟩ := next a known
    exact ⟨r, code, straight, Does.ask known first, Does.ask ((reads.eq same).trans known) second⟩

end
end Lowering

namespace Site

open Lowering

variable {site site' : Site} {l : Locals} {inlining : List String} {fill fill' : Fill}
  {m m' : Lowering TypeRef} {type : TypeRef} {span : Span}

/-- The same is put in the place of each field of the class. -/
def FillsAlike (site : Site) (l : Locals) (inlining : List String) (fill fill' : Fill) : Prop :=
  ∀ name f, (site.scope l).field? name = some f → ∀ unknown,
    Alike l inlining (fill unknown f) (fill' unknown f)

section

variable (same : (site'.scope l).declared = (site.scope l).declared)
include same

theorem put_alike {f : Scope → Code} (reads : Scope.ReadsDeclared f)
    (straight : Straight (f (site.scope l)).instructions) :
    Alike l inlining (site.put f) (site'.put f) := by
  refine Alike.ask same (fun s => congrArg Except.ok (reads s)) fun c known => ?_
  cases known
  exact (alike_emit straight).bind fun _ => alike_pure _

theorem needed_alike {e : Expr} (h : Alike l inlining m m') :
    Alike l inlining (site.needed e m) (site'.needed e m') :=
  h.bind fun _ => alike_ask same fun _ => rfl

theorem lowerField_alike {unknown : Failure} {f : Field}
    (filled : Alike l inlining (fill unknown f) (fill' unknown f)) :
    Alike l inlining (site.lowerField fill unknown f) (site'.lowerField fill' unknown f) := by
  refine Alike.ask same (fun _ => rfl) fun hasReceiver _ => ?_
  split
  · exact put_alike same (fun s => by simp only [Scope.fieldTarget_declared]) (.one rfl)
  split
  · exact put_alike same (fun s => by simp only [Scope.fieldTarget_declared])
      ((Straight.one rfl).append (.one rfl))
  · exact filled.bind fun _ => alike_pure _

theorem lowerName_alike (fills : site.FillsAlike l inlining fill fill')
    (name : String) (span : Span) :
    Alike l inlining (site.lowerName fill name span) (site'.lowerName fill' name span) := by
  refine Alike.ask same (fun _ => rfl) fun slot _ => ?_
  cases slot with
  | some slot => exact put_alike same (fun _ => rfl) (Scope.loadLocal_leaves _ _).straight
  | none =>
    refine Alike.ask same (fun s => by simp only [Scope.field?_declared]) fun f known => ?_
    cases found : (site.scope l).field? name with
    | none =>
      rw [found] at known
      cases known
    | some g =>
      rw [found] at known
      cases known
      exact lowerField_alike same (fills name f found _)

theorem lowerRight_alike {op : Operation} {right : Expr} (h : Alike l inlining m m')
    (sig : Signature) : Alike l inlining (site.lowerRight type op sig right m)
      (site'.lowerRight type op sig right m') :=
  (needed_alike same h).bind fun got => alike_ask same fun s => by
    simp only [Scope.showType_declared]

theorem lowerOperation_alike (installed : site.registry.declarations.Installed site.builtins)
    {op : Operation} {right right' : Signature → Lowering Unit}
    (h : ∀ sig, Alike l inlining (right sig) (right' sig)) :
    Alike l inlining (site.lowerOperation type op span right)
      (site'.lowerOperation type op span right') := by
  refine Alike.ask same (Scope.application_declared _ _ _) fun found known => ?_
  obtain ⟨m, operator, rfl⟩ := map_eq_ok.1 known
  exact (h _).bind fun _ => (alike_emit (Scope.straight_of_declared installed operator)).bind
    fun _ => alike_pure _

theorem lowerUnary_alike (installed : site.registry.declarations.Installed site.builtins)
    (op : UnaryOp) : Alike l inlining (site.lowerUnary type span op)
      (site'.lowerUnary type span op) := by
  cases op with
  | not => exact lowerOperation_alike same installed fun _ => alike_pure _
  | neg | pos =>
    refine Alike.ask same (fun s => by simp only [Scope.showType_declared]; rfl) fun _ _ => ?_
    exact (alike_emit (.ite (.one rfl))).bind fun _ => alike_pure _

theorem lowerArg_alike {callee param : String} {arg : Expr} (h : Alike l inlining m m') :
    Alike l inlining (site.lowerArg callee param type arg m)
      (site'.lowerArg callee param type arg m') := by
  unfold lowerArg
  split
  · refine Alike.ask same (fun s => s.addressArgument_declared _ _ _ _) fun code known => ?_
    exact alike_emit (Scope.addressArgument_leaves known).straight
  · exact (needed_alike same h).bind fun got => alike_ask same fun s => by
      simp only [Scope.showType_declared]

end

mutual

/-- Two sites that are declared the same, with the same put in the place of fields. -/
theorem lowerWith_alike (same : (site'.scope l).declared = (site.scope l).declared)
    (installed : site.registry.declarations.Installed site.builtins)
    (fills : site.FillsAlike l inlining fill fill') : ∀ e : Expr,
    Alike l inlining (site.lowerWith fill e) (site'.lowerWith fill' e)
  | .int v _ => by
    rw [lowerWith, lowerWith]
    refine put_alike same (fun _ => rfl) ?_
    rw [Scope.intCode]
    split <;> exact .one rfl
  | .float v _ => by
    rw [lowerWith, lowerWith]
    refine put_alike same (fun _ => rfl) ?_
    rw [Scope.floatCode]
    split <;> exact .one rfl
  | .str v _ => by
    rw [lowerWith, lowerWith]
    exact put_alike same (fun _ => rfl) (.one rfl)
  | .ident name span => by
    rw [lowerWith, lowerWith]
    exact lowerName_alike same fills name span
  | .binary op left right span => by
    rw [lowerWith, lowerWith]
    have second (type : TypeRef) : Alike l inlining
        (site.lowerOperation type op.operation span
          (site.lowerRight type op.operation · right (site.lowerWith fill right)))
        (site'.lowerOperation type op.operation span
          (site'.lowerRight type op.operation · right (site'.lowerWith fill' right))) :=
      lowerOperation_alike same installed
        (lowerRight_alike same (lowerWith_alike same installed fills right))
    have negation : Straight [.ldcI4 0, .arith .ceq] := (Straight.one rfl).append (.one rfl)
    exact (needed_alike same (lowerWith_alike same installed fills left)).bind fun type =>
      (second type).bind fun _ => (alike_emit (.ite negation)).bind fun _ => alike_pure _
  | .unary op operand span => by
    rw [lowerWith, lowerWith]
    exact (needed_alike same (lowerWith_alike same installed fills operand)).bind fun _ =>
      lowerUnary_alike same installed op
  | .call callee nameSpan args span => by
    rw [lowerWith, lowerWith]
    refine Alike.ask same (fun s => s.callee_declared _ _) fun sig _ => ?_
    refine (alike_emit (.ite (.one rfl))).bind fun _ => ?_
    refine Alike.ask same (fun _ => rfl) fun _ _ => ?_
    refine (lowerArgs_alike same installed fills args sig.params).bind fun _ => ?_
    exact put_alike same (fun s => by rw [s.callInstruction_declared]) (.one rfl)
  | .cast operand target targetSpan span => by
    rw [lowerWith, lowerWith]
    refine (needed_alike same (lowerWith_alike same installed fills operand)).bind fun type => ?_
    refine Alike.ask same (fun s => s.conversion_declared _ _ _ _) fun found _ => ?_
    exact (alike_emit (.one rfl)).bind fun _ => alike_pure _

theorem lowerArgs_alike (same : (site'.scope l).declared = (site.scope l).declared)
    (installed : site.registry.declarations.Installed site.builtins)
    (fills : site.FillsAlike l inlining fill fill') {callee : String} :
    ∀ (args : List Expr) (params : List (String × TypeRef)),
    Alike l inlining (site.lowerArgs fill callee args params)
      (site'.lowerArgs fill' callee args params)
  | [], _ => by
    rw [lowerArgs, lowerArgs]
    · exact alike_pure _
    all_goals simp
  | _ :: _, [] => by
    rw [lowerArgs, lowerArgs]
    · exact alike_pure _
    all_goals simp
  | arg :: args, (param, type) :: params => by
    rw [lowerArgs, lowerArgs]
    exact (lowerArg_alike same (lowerWith_alike same installed fills arg)).bind fun _ =>
      lowerArgs_alike same installed fills args params

end

theorem fillWith_alike (same : (site'.scope l).declared = (site.scope l).declared)
    {lower lower' : Expr → Lowering TypeRef} {f : Field}
    (h : ∀ default, Alike l (f.name :: inlining) (lower default) (lower' default))
    (unknown : Failure) :
    Alike l inlining (site.fillWith lower unknown f) (site'.fillWith lower' unknown f) := by
  refine (alike_openDefault unknown f).bind fun default => ?_
  refine (needed_alike same (h default)).inside.bind fun got => alike_ask same fun s => ?_
  simp only [Scope.showType_declared]

/-- The default of a field is not compiled inside of itself. -/
theorem fillWith_does {lower : Expr → Lowering TypeRef} {f : Field} (closed : f.name ∈ inlining)
    (unknown : Failure) :
    (site.fillWith lower unknown f).Does l inlining (.error unknown) [] := by
  have opened : (openDefault unknown f).Does l inlining _ [] := does_openDefault
  rw [if_pos closed] at opened
  exact opened.stop

/-- What is put in the place of a field where so many defaults can be nested. -/
def fillAt (site : Site) : Nat → Fill
  | 0 => fun unknown _ => fail unknown
  | n + 1 => site.fillWith (site.lowerInside n)

theorem lowerInside_eq (n : Nat) (e : Expr) :
    site.lowerInside n e = site.lowerWith (site.fillAt n) e := by
  cases n <;> rfl

theorem fillAt_does {f : Field} (closed : f.name ∈ inlining) (unknown : Failure) (n : Nat) :
    (site.fillAt n unknown f).Does l inlining (.error unknown) [] := by
  cases n with
  | zero => exact does_fail
  | succ n => exact fillWith_does closed unknown

/-- The bound on nested defaults does not matter where it leaves room for the fields that are still
open: a default is compiled with one field less. -/
theorem lowerInside_alike (same : (site'.scope l).declared = (site.scope l).declared)
    (installed : site.registry.declarations.Installed site.builtins) {n n' : Nat}
    (room : ((site.scope l).openFields inlining).length ≤ n)
    (room' : ((site.scope l).openFields inlining).length ≤ n') (e : Expr) :
    Alike l inlining (site.lowerInside n e) (site'.lowerInside n' e) := by
  induction n using Nat.strong_induction_on generalizing n' inlining e with
  | _ n ih =>
    rw [lowerInside_eq, lowerInside_eq]
    refine lowerWith_alike same installed (fun name f found unknown => ?_) e
    by_cases closed : f.name ∈ inlining
    · exact ⟨_, [], .nil, fillAt_does closed unknown n, fillAt_does closed unknown n'⟩
    have less := Scope.length_openFields_lt found closed
    obtain ⟨k, rfl⟩ : ∃ k, n = k + 1 := ⟨n - 1, by omega⟩
    obtain ⟨k', rfl⟩ : ∃ k', n' = k' + 1 := ⟨n' - 1, by omega⟩
    exact fillWith_alike same (ih k (Nat.lt_succ_self k) (by omega) (by omega)) unknown

theorem length_openFields_le (site : Site) (l : Locals) (inlining : List String) :
    ((site.scope l).openFields inlining).length ≤
      ((site.registry.class? site.owner).elim [] (·.fields)).length := List.length_filter_le _ _

theorem lower_alike (same : (site'.scope l).declared = (site.scope l).declared)
    (installed : site.registry.declarations.Installed site.builtins) (e : Expr) :
    Alike l inlining (site.lower e) (site'.lower e) := by
  refine lowerInside_alike same installed (site.length_openFields_le l inlining) ?_ e
  have fields : (site.scope l).openFields inlining = (site'.scope l).openFields inlining := by
    rw [← Scope.openFields_declared, ← same, Scope.openFields_declared]
  rw [fields]
  exact site'.length_openFields_le l inlining

/-- Lowering knows of no bound: a default is lowered like any expression. -/
theorem lower_eq (installed : site.registry.declarations.Installed site.builtins) (e : Expr) :
    site.lower e = site.lowerWith (site.fillWith site.lower) e := by
  funext b
  have same : (site.scope b.draft.locals).declared = (site.scope b.draft.locals).declared := rfl
  have room := site.length_openFields_le b.draft.locals b.inlining
  suffices alike : Alike b.draft.locals b.inlining (site.lower e)
      (site.lowerWith (site.fillWith site.lower) e) by
    obtain ⟨r, code, -, first, second⟩ := alike
    rw [first b rfl rfl, second b rfl rfl]
  unfold lower at room ⊢
  generalize ((site.registry.class? site.owner).elim [] (·.fields)).length = n at room ⊢
  rw [lowerInside_eq]
  refine lowerWith_alike same installed (fun name f found unknown => ?_) e
  by_cases closed : f.name ∈ b.inlining
  · exact ⟨_, [], .nil, fillAt_does closed unknown n, fillWith_does closed unknown⟩
  have less := Scope.length_openFields_lt found closed
  obtain ⟨k, rfl⟩ : ∃ k, n = k + 1 := ⟨n - 1, by omega⟩
  exact fillWith_alike same (lowerInside_alike same installed (by omega) (by omega)) unknown

/-- Where an expression can stand: built-in operators are templates, and the namespace is the one of
the class. -/
structure Stands (site : Site) : Prop where
  installed : site.registry.declarations.Installed site.builtins
  nspace : site.nspace = site.registry.home site.owner

/-- The registries declare the same; the class is the same, and there is a receiver in both methods or
in none. -/
structure Resembles (site site' : Site) : Prop where
  declarations : site'.registry.declarations = site.registry.declarations
  owner : site'.owner = site.owner
  takesReceiver : site'.sig.takesReceiver = site.sig.takesReceiver

theorem Resembles.declared (h : site.Resembles site') (stands : site.Stands)
    (stands' : site'.Stands) (l : Locals) : (site'.scope l).declared = (site.scope l).declared := by
  have builtins : site'.builtins = site.builtins :=
    stands'.installed.builtins.trans stands.installed.builtins.symm
  have nspace : site'.nspace = site.nspace := by
    rw [stands'.nspace, stands.nspace, ← Registry.home_declarations, h.declarations, h.owner,
      Registry.home_declarations]
  simp only [scope, Scope.declared, h.declarations, builtins, h.owner, nspace, h.takesReceiver]

end Site

end ClassAsm
