import ClassAsm.Proofs.Code.Operands
import ClassAsm.Proofs.Renaming.Declarations

/-! The code of an expression under a renaming. The same instructions come out, and where there are
none the same failure at the renamed place. -/

namespace ClassAsm

variable (ρ : Renaming)

/-- The same names and slots. -/
def Locals.rename (l : Locals) : Locals :=
  Table.map l (fun (name, type) => (name, type.rename ρ)) fun _ => rfl

def Code.rename (c : Code) : Code := ⟨c.instructions, c.type.rename ρ⟩

/-- What the second scope shows is what the first one shows, renamed. -/
structure Scope.RenamesTo (s s' : Scope) : Prop where
  installed : s.builtins = ⟨0, 1, 2, 3, 4, 5⟩
  registry : s.registry.RenamesTo ρ s'.registry
  builtins : s'.builtins = s.builtins
  owner : s'.owner = ρ.cls s.owner
  resolves : ∀ name, s'.registry.resolve? name s'.nspace =
    (s.registry.resolve? name s.nspace).map (·.rename ρ)
  hasReceiver : s'.hasReceiver = s.hasReceiver
  locals : s'.locals = s.locals.rename ρ

variable {ρ}

theorem Locals.find?_rename (l : Locals) (name : String) :
    (l.rename ρ).find? name = (l.find? name).map fun (slot, type) => (slot, type.rename ρ) := by
  change (l.index[name]? >>= fun slot => (l.entries.map _)[slot]? >>= fun _ => _) = _
  simp only [find?, Option.bind_eq_bind, Array.getElem?_map]
  cases l.index[name]? with
  | none => rfl
  | some slot => cases h : l.entries[slot]? <;> simp [h]

namespace Scope

variable {s s' : Scope} (h : s.RenamesTo ρ s')

include h

theorem field?_rename (name : String) : s'.field? name = (s.field? name).map (·.rename ρ) := by
  rw [field?, field?, h.owner, h.registry.bind s.owner (·.field? name) fun _ => rfl]
  simp only [Class.field?_rename, Option.map_bind, Function.comp_def]

theorem method?_rename (name : String) : (s'.method? name).map Method.declaration =
    (s.method? name).map fun m => (m.rename ρ).declaration := by
  rw [method?, method?, h.owner]
  exact h.registry.method? s.owner name

theorem isVoid_rename (t : TypeRef) : s'.isVoid (t.rename ρ) = s.isVoid t := by
  rw [isVoid, isVoid, h.builtins, TypeRef.rename, Bool.beq_eq_decide_eq, Bool.beq_eq_decide_eq]
  exact decide_eq_decide.2 (Builtins.cls_eq_void h.installed _)

theorem showType_rename (t : TypeRef) : s'.showType (t.rename ρ) = s.showType t :=
  h.registry.showType t

theorem pushes_rename (t : TypeRef) : s'.pushes (t.rename ρ) = s.pushes t := by
  rw [pushes, pushes, isVoid_rename h]

theorem resolveType_rename (name : String) (span : Span) :
    s'.resolveType name (ρ.span span) =
      carry (·.rename ρ) (·.rename ρ) (s.resolveType name span) := by
  rw [resolveType, resolveType, h.resolves]
  cases s.registry.resolve? (TypeName.parse name) s.nspace <;> rfl

theorem needValue_rename (span : Span) (c : Code) :
    s'.needValue (ρ.span span) (c.rename ρ) =
      carry (·.rename ρ) (·.rename ρ) (s.needValue span c) := by
  rw [needValue, needValue, Code.rename, isVoid_rename h]
  cases s.isVoid c.type <;> rfl

theorem loadLocal_rename (slot : Nat) (type : TypeRef) :
    s'.loadLocal slot (type.rename ρ) = (s.loadLocal slot type).rename ρ := by
  rw [loadLocal, loadLocal, TypeRef.isAddress_rename, h.builtins, Builtins.elementKind,
    Builtins.elementKind, TypeRef.rename, Builtins.numeric?_rename h.installed]
  cases type.isAddress <;> rfl

theorem operator_rename (t : TypeRef) (op : Operation) (span : Span) :
    (s'.operator (t.rename ρ) op (ρ.span span)).map Method.declaration =
      carry (·.rename ρ) (fun m => (m.rename ρ).declaration) (s.operator t op span) := by
  have found := h.registry.operator? t.cls op
  rw [operator, operator, TypeRef.rename, h.registry.className]
  cases old : (s.registry.class? t.cls).bind (·.operator? op) with
  | none =>
    rw [old, Option.map_none, Option.map_eq_none_iff] at found
    rw [found]
    rfl
  | some m =>
    rw [old, Option.map_some, Option.map_eq_some_iff] at found
    obtain ⟨m', new, same⟩ := found
    have sig : m'.sig = m.sig.rename ρ := congrArg Method.sig same
    simp only [new, sig, Signature.params_rename, Renaming.length_types]
    split
    · exact congrArg Except.ok same
    · rfl

/-- Two operators that are declared the same are used in the same way. -/
theorem useOperator_rename {m m' : Method} (same : m'.declaration = (m.rename ρ).declaration) :
    s'.useOperator m' = s.useOperator m := by
  have sig : m'.sig = m.sig.rename ρ := congrArg Method.sig same
  have body : m'.body.declared = (m.body.rename ρ).declared := congrArg Method.body same
  have call : s'.registry.callTarget (m.sig.rename ρ) = s.registry.callTarget m.sig :=
    h.registry.callTarget m.sig
  rw [useOperator, useOperator, sig]
  cases hb : m.body <;> cases hb' : m'.body <;> rw [hb, hb'] at body <;> cases body
  case inline.inline => rfl
  all_goals simp only [call, Signature.params_rename, Renaming.length_types,
    Signature.returnType_rename, pushes_rename h]

theorem addressArgument_rename (callee param : String) (type : TypeRef) (arg : Expr) :
    s'.addressArgument callee param (type.rename ρ) (arg.mapSpan ρ.span) =
      carry (·.rename ρ) id (s.addressArgument callee param type arg) := by
  unfold addressArgument
  rw [showType_rename h, Expr.span_mapSpan]
  cases arg with
  | ident name =>
    simp only [Expr.mapSpan, h.locals, Locals.find?_rename]
    cases s.locals.find? name with
    | none => rfl
    | some l =>
      obtain ⟨slot, got⟩ := l
      simp only [Option.map_some, TypeRef.valueType_rename, TypeRef.rename_inj, showType_rename h]
      split <;> rfl
  | _ => rfl

theorem intCode_rename (v : Nat) : s'.intCode v = (s.intCode v).rename ρ := by
  rw [intCode, intCode, h.builtins, h.installed]
  split <;> rw [Code.rename, TypeRef.rename_builtin (by decide)]

theorem floatCode_rename (v : Binary64) : s'.floatCode v = (s.floatCode v).rename ρ := by
  rw [floatCode, floatCode, h.builtins, h.installed]
  split <;> rw [Code.rename, TypeRef.rename_builtin (by decide)]

theorem callee_rename (name : String) (span : Span) :
    s'.callee name (ρ.span span) = carry (·.rename ρ) (·.rename ρ) (s.callee name span) := by
  have found := method?_rename h name
  rw [callee, callee, h.hasReceiver]
  cases old : s.method? name with
  | none =>
    rw [old, Option.map_none, Option.map_eq_none_iff] at found
    rw [found]
    rfl
  | some m =>
    rw [old, Option.map_some, Option.map_eq_some_iff] at found
    obtain ⟨m', new, same⟩ := found
    have sig : m'.sig = m.sig.rename ρ := congrArg Method.sig same
    simp only [new, sig, Signature.takesReceiver_rename]
    split <;> rfl

/-- What follows on an operator depends on its declaration. -/
theorem operator_bind {α α' : Type} {f : α → α'} {t : TypeRef} {op : Operation} {span : Span}
    {k : Method → Except Failure α} {k' : Method → Except Failure α'}
    (next : ∀ m m', m'.declaration = (m.rename ρ).declaration →
      k' m' = carry (·.rename ρ) f (k m)) :
    s'.operator (t.rename ρ) op (ρ.span span) >>= k' =
      carry (·.rename ρ) f (s.operator t op span >>= k) := by
  have same := operator_rename h t op span
  cases old : s.operator t op span with
  | error failure =>
    rw [old, carry, map_eq_error] at same
    rw [same]
    rfl
  | ok m =>
    rw [old, carry, map_eq_ok] at same
    obtain ⟨m', new, declared⟩ := same
    rw [new]
    exact next m m' declared

variable {standIn standIn' : StandIn}

theorem nameCode_rename
    (hst : ∀ f, standIn' (f.rename ρ) = (standIn f).map (carry (·.rename ρ) id))
    (name : String) (span : Span) :
    s'.nameCode standIn' name (ρ.span span) =
      carry (·.rename ρ) (·.rename ρ) (s.nameCode standIn name span) := by
  rw [nameCode, nameCode, h.locals, Locals.find?_rename, field?_rename h]
  cases s.locals.find? name with
  | some l => exact congrArg Except.ok (loadLocal_rename h l.1 l.2)
  | none =>
    cases s.field? name with
    | none => rfl
    | some f =>
      simp only [Option.map_none, Option.map_some, h.owner, h.registry.fieldTarget, hst,
        h.hasReceiver]
      rw [show (f.rename ρ).isStatic = f.isStatic from rfl]
      split
      · rfl
      split
      · rfl
      cases standIn f with
      | none => rfl
      | some code => cases code <;> rfl

mutual

theorem codeWith_rename
    (hst : ∀ f, standIn' (f.rename ρ) = (standIn f).map (carry (·.rename ρ) id)) : ∀ e : Expr,
    s'.codeWith standIn' (e.mapSpan ρ.span) =
      carry (·.rename ρ) (·.rename ρ) (s.codeWith standIn e)
  | .int v _ => congrArg Except.ok (intCode_rename h v)
  | .float v _ => congrArg Except.ok (floatCode_rename h v)
  | .str v _ => by
    simp only [Expr.mapSpan, codeWith, carry, Code.rename, h.builtins, h.installed,
      TypeRef.rename_builtin (by decide : 4 < 6)]
  | .ident name span => nameCode_rename h hst name span
  | .binary op left right span => by
    simp only [Expr.mapSpan, codeWith, Expr.span_mapSpan]
    refine carry_bind (codeWith_rename hst left) fun l _ => ?_
    refine carry_bind (needValue_rename h _ l) fun l _ => ?_
    refine operator_bind h fun m m' same => ?_
    have sig : m'.sig = m.sig.rename ρ := congrArg Method.sig same
    refine carry_bind (codeWith_rename hst right) fun r _ => ?_
    refine carry_bind (needValue_rename h _ r) fun r _ => ?_
    have wanted : ((m'.sig.params[1]?).map (·.2)).getD (l.rename ρ).type =
        (((m.sig.params[1]?).map (·.2)).getD l.type).rename ρ := by
      simp only [sig, Signature.params_rename, Renaming.types, List.getElem?_map]
      cases m.sig.params[1]? <;> rfl
    simp only [wanted]
    generalize ((m.sig.params[1]?).map (·.2)).getD l.type = w
    simp only [Code.rename, ne_eq, TypeRef.rename_inj, showType_rename h, useOperator_rename h same,
      sig]
    split <;> rfl
  | .unary op operand span => by
    simp only [Expr.mapSpan, codeWith, Expr.span_mapSpan]
    refine carry_bind (codeWith_rename hst operand) fun c _ => ?_
    refine carry_bind (needValue_rename h _ c) fun c _ => ?_
    cases op with
    | not =>
      refine operator_bind h fun m m' same => ?_
      have sig : m'.sig = m.sig.rename ρ := congrArg Method.sig same
      simp only [Code.rename, useOperator_rename h same, sig]
      rfl
    | neg | pos =>
      simp only [Code.rename, h.builtins, Builtins.isNumeric, TypeRef.rename,
        Builtins.numeric?_rename h.installed, ← showType_rename h c.type]
      split <;> rfl
  | .call name nameSpan args _ => by
    simp only [Expr.mapSpan, codeWith]
    refine carry_bind (callee_rename h name nameSpan) fun sig _ => ?_
    have call : s'.registry.callTarget (sig.rename ρ) = s.registry.callTarget sig :=
      h.registry.callTarget sig
    simp only [Expr.length_mapSpanEach, Signature.params_rename, Renaming.length_types,
      Signature.takesReceiver_rename, Signature.returnType_rename, call, pushes_rename h]
    split
    · rfl
    · exact carry_bind (argsWith_rename hst name args sig.params) fun given _ => rfl
  | .cast operand target targetSpan span => by
    simp only [Expr.mapSpan, codeWith, Expr.span_mapSpan]
    refine carry_bind (codeWith_rename hst operand) fun c _ => ?_
    refine carry_bind (needValue_rename h _ c) fun c _ => ?_
    refine carry_bind (resolveType_rename h target targetSpan) fun type _ => ?_
    simp only [Code.rename, showType_rename h, h.builtins, TypeRef.isAddress_rename]
    simp only [TypeRef.rename, Builtins.numeric?_rename h.installed]
    split <;> rfl

theorem argsWith_rename
    (hst : ∀ f, standIn' (f.rename ρ) = (standIn f).map (carry (·.rename ρ) id)) (name : String) :
    ∀ (args : List Expr) (params : List (String × TypeRef)),
    s'.argsWith standIn' name (Expr.mapSpanEach ρ.span args) (ρ.types params) =
      carry (·.rename ρ) id (s.argsWith standIn name args params)
  | [], _ => by simp only [Expr.mapSpanEach, argsWith, carry, id]
  | _ :: _, [] => by simp only [Expr.mapSpanEach, Renaming.types, List.map_nil, argsWith, carry, id]
  | arg :: args, (param, type) :: params => by
    simp only [Expr.mapSpanEach, Renaming.types, List.map_cons, argsWith_cons]
    refine carry_bind (f := id) ?_ fun here _ => ?_
    · unfold argCode
      rw [TypeRef.isAddress_rename, Expr.span_mapSpan]
      cases type.isAddress with
      | true => exact addressArgument_rename h name param type arg
      | false =>
        refine carry_bind (codeWith_rename hst arg) fun c _ => ?_
        refine carry_bind (needValue_rename h _ c) fun c _ => ?_
        simp only [Code.rename, TypeRef.rename_inj, showType_rename h]
        split <;> rfl
    · exact carry_bind (argsWith_rename hst name args params) fun rest _ => rfl

end

/-- The defaults inside are the renamed ones. -/
theorem codeInside_rename (n : Nat) (inlining : List String) (e : Expr) :
    s'.codeInside n inlining (e.mapSpan ρ.span) =
      carry (·.rename ρ) (·.rename ρ) (s.codeInside n inlining e) := by
  induction n generalizing inlining e with
  | zero => exact codeWith_rename h (fun _ => rfl) e
  | succ n ih =>
    refine codeWith_rename h (fun f => ?_) e
    rw [show (f.rename ρ).name = f.name from rfl]
    split
    · rfl
    · rw [Field.rename]
      cases f.default with
      | none => rfl
      | some default =>
        refine congrArg some ?_
        refine carry_bind (ih _ default) fun c _ => ?_
        rw [Expr.span_mapSpan]
        refine carry_bind (needValue_rename h _ c) fun c _ => ?_
        simp only [Code.rename, TypeRef.rename_inj, showType_rename h]
        split <;> rfl

theorem code_rename (e : Expr) :
    s'.code (e.mapSpan ρ.span) = carry (·.rename ρ) (·.rename ρ) (s.code e) := by
  have fields : ((s'.registry.class? s'.owner).elim [] (·.fields)).length =
      ((s.registry.class? s.owner).elim [] (·.fields)).length := by
    rw [h.owner, h.registry.elim s.owner [] (·.fields) fun _ => rfl]
    cases s.registry.class? s.owner with
    | none => rfl
    | some c => simp
  simp only [code, fields]
  exact codeInside_rename h _ _ e

theorem valueCode_rename (e : Expr) :
    s'.valueCode (e.mapSpan ρ.span) = carry (·.rename ρ) (·.rename ρ) (s.valueCode e) := by
  refine carry_bind (code_rename h e) fun c _ => ?_
  rw [Expr.span_mapSpan]
  exact needValue_rename h _ c

end Scope
end ClassAsm
