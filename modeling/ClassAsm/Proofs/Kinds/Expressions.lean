import ClassAsm.Proofs.Code.References
import ClassAsm.Proofs.Kinds.Replay
import ClassAsm.Proofs.Kinds.Truths

/-! The kinds that expressions leave. A value has the kind of its type, except that a truth value is
an `int32`. The operands of an operator have the same type, and so the same kind where they are
exact. -/

namespace ClassAsm

/-- What is declared around a method: fields, methods and the receiver have the kinds that the
kinding gives them. -/
structure Kinding.Serves (κ : Kinding) (r : Registry) (b : Builtins) (owner : ClassId)
    (hasReceiver : Bool) : Prop where
  installed : r.Installed b
  /-- Strings have no operators. -/
  string : ∀ op, (r.class? b.string).bind (·.operator? op) = none
  fields : ∀ c, r.class? owner = some c → ∀ x ∈ c.fields, ∃ k,
    b.stackKind? x.type = some k ∧ κ.field? x.isStatic (r.fieldTarget owner x) = some k
  calls : ∀ c, r.class? owner = some c → ∀ m ∈ c.methods, ∃ ks,
    List.Forall₂ (fun p k => b.stackKind? p.2 = some k) m.sig.params ks ∧
      κ.call? (r.callTarget m.sig) =
        some (ks.reverse ++ if m.sig.takesReceiver then [.object] else [],
          (b.stackKind? m.sig.returnType).toList) ∧
      (m.sig.returnType.cls = b.void ∨ (b.stackKind? m.sig.returnType).isSome)
  receiver : hasReceiver = true → κ.arg? 0 = some .object

/-- The locals have the kinds that the kinding gives them. -/
def Kinding.Covers (κ : Kinding) (b : Builtins) (l : Locals) : Prop :=
  ∀ name slot type, l.find? name = some (slot, type) →
    ∃ k, b.stackKind? type = some k ∧ κ.local? slot = some k

/-- What names mean in a scope has the kinds that the kinding gives it. -/
structure Kinding.Shows (κ : Kinding) (s : Scope) : Prop extends
  κ.Serves s.registry s.builtins s.owner s.hasReceiver where
  locals : κ.Covers s.builtins s.locals

/-! Templates of operations. -/

namespace Kinding

variable {κ : Kinding}

theorem turns_zero (κ : Kinding) (n : Numeric) : κ.Turns [n.zero] [] [n.kind.onStack] := by
  cases n <;> exact .one fun _ => rfl

theorem turns_not (κ : Kinding) (n : Numeric) :
    κ.Turns [n.zero, .arith .ceq] [n.kind.onStack] [.int32] :=
  ((κ.turns_zero n).above [_]).append (Turns.arith κ .ceq _)

theorem turns_negated (κ : Kinding) (op : Arith) (k : StackKind) (h : op.compares = true) :
    κ.Turns [.arith op, .ldcI4 0, .arith .ceq] [k, k] [.int32] := by
  have compared := Turns.arith κ op k
  rw [h] at compared
  exact compared.append (κ.turns_not .i32)

theorem turns_sign (κ : Kinding) (sign : UnaryOp) (k : StackKind) :
    κ.Turns (if sign = .neg then [.neg] else []) [k] [k] := by
  split
  · exact .neg κ k
  · exact .nil κ [k]

/-- Both operands of an operator have the same kind, and its result has it too unless it compares
them. -/
theorem turns_template {n : Numeric} {op : BinaryOp} {code : List Instruction}
    (h : n.template? op.operation = some code) (k : StackKind) :
    κ.Turns (code ++ if op = .ne then [.ldcI4 0, .arith .ceq] else []) [k, k]
      [if op.compares then .int32 else k] := by
  cases op <;> simp only [BinaryOp.operation, Numeric.template?, Option.some.injEq] at h <;> subst h
  case ne => exact κ.turns_negated .ceq k rfl
  case le => exact κ.turns_negated .cgt k rfl
  case ge => exact κ.turns_negated .clt k rfl
  all_goals exact Turns.arith κ _ k

end Kinding

namespace Scope

variable {s : Scope} {κ : Kinding}

/-- The code leaves nothing if its type is `void`. Otherwise it leaves one operand, an `int32` if it
is a truth value and else of the kind of its type. -/
def Yields (s : Scope) (κ : Kinding) (e : Expr) (c : Code) : Prop :=
  (s.isVoid c.type = true ∧ κ.Turns c.instructions [] []) ∨
    ∃ k, s.builtins.stackKind? c.type = some k ∧
      κ.Turns c.instructions [] [if e.isTruth then .int32 else k]

theorem Yields.value {e : Expr} {c : Code} (h : s.Yields κ e c) (hv : s.isVoid c.type = false) :
    ∃ k, s.builtins.stackKind? c.type = some k ∧
      κ.Turns c.instructions [] [if e.isTruth then .int32 else k] := by
  rcases h with ⟨void, -⟩ | h
  · rw [hv] at void
    cases void
  · exact h

theorem Yields.exact {e : Expr} {c : Code} (hb : s.builtins = ⟨0, 1, 2, 3, 4, 5⟩)
    (h : s.Yields κ e c) (hv : s.isVoid c.type = false) {standIn : StandIn}
    (hc : s.codeWith standIn e = .ok c) (hx : s.IsExact e) :
    ∃ k, s.builtins.stackKind? c.type = some k ∧ κ.Turns c.instructions [] [k] := by
  obtain ⟨k, hk, turns⟩ := h.value hv
  refine ⟨k, hk, ?_⟩
  cases truth : e.isTruth with
  | false => simpa [truth] using turns
  | true =>
    have i32 := hx truth standIn c hc
    have kind : k = .int32 := by
      obtain ⟨plain, -⟩ := Builtins.stackKind?_eq_some hk
      rw [plain, i32, hb] at hk
      exact (Option.some.inj hk).symm
    simpa [truth, kind] using turns

theorem Yields.needed {e : Expr} {c c' : Code} {span : Span} (hb : s.builtins = ⟨0, 1, 2, 3, 4, 5⟩)
    (h : s.Yields κ e c) {standIn : StandIn} (hc : s.codeWith standIn e = .ok c) (hx : s.IsExact e)
    (hn : s.needValue span c = .ok c') :
    c = c' ∧ ∃ k, s.builtins.stackKind? c.type = some k ∧ κ.Turns c.instructions [] [k] := by
  obtain ⟨hv, rfl⟩ := needValue_eq_ok.1 hn
  exact ⟨rfl, h.exact hb hv hc hx⟩

/-! The cases of an expression. -/

theorem Yields.int (hb : s.builtins = ⟨0, 1, 2, 3, 4, 5⟩) (v : Nat) (span : Span) :
    s.Yields κ (.int v span) (s.intCode v) := by
  right
  unfold intCode
  split <;> rw [hb]
  · exact ⟨.int32, rfl, .one fun _ => rfl⟩
  · exact ⟨.int64, rfl, .one fun _ => rfl⟩

theorem Yields.float (hb : s.builtins = ⟨0, 1, 2, 3, 4, 5⟩) (v : Binary64) (span : Span) :
    s.Yields κ (.float v span) (s.floatCode v) := by
  right
  unfold floatCode
  split <;> rw [hb] <;> exact ⟨.float, rfl, .one fun _ => rfl⟩

/-- What stands in for the fields of the class has their kinds. -/
def Stands (s : Scope) (κ : Kinding) (standIn : StandIn) : Prop :=
  ∀ c, s.registry.class? s.owner = some c → ∀ x ∈ c.fields, ∀ code, standIn x = some (.ok code) →
    ∃ k, s.builtins.stackKind? x.type = some k ∧ κ.Turns code [] [k]

variable {standIn : StandIn}

theorem Yields.name (hκ : κ.Shows s) (hst : s.hasReceiver = false → s.Stands κ standIn)
    {name : String} {span : Span} {c : Code} (h : s.nameCode standIn name span = .ok c) :
    s.Yields κ (.ident name span) c := by
  right
  unfold nameCode at h
  split at h
  · next slot type hl =>
    cases h
    obtain ⟨k, hk, local'⟩ := hκ.locals name slot type hl
    have value := Builtins.isAddress_of_stackKind? hk
    rw [loadLocal, if_neg (by simp [value])]
    exact ⟨k, hk, .ldloc local'⟩
  simp only at h
  split at h
  · cases h
  next x hx =>
  obtain ⟨cls, hcls, hm⟩ := exists_field hx
  obtain ⟨k, hk, field⟩ := hκ.fields cls hcls x hm
  split at h
  · next isStatic =>
    cases h
    rw [isStatic] at field
    exact ⟨k, hk, .ldsfld field⟩
  next isInstance =>
  rw [Bool.not_eq_true] at isInstance
  rw [isInstance] at field
  split at h
  · next receiver =>
    cases h
    exact ⟨k, hk, (Kinding.Turns.ldarg (hκ.receiver receiver)).append (.ldfld field)⟩
  next receiver =>
  split at h
  · cases h
  · next code hc =>
    obtain ⟨instructions, rfl, rfl⟩ := map_eq_ok.1 h
    exact hst (by simpa using receiver) cls hcls x hm instructions hc

/-- An operator applies to numbers only, and gives a number of the same type. -/
theorem operator_numeric (hκ : κ.Shows s) {t : TypeRef} {op : Operation} {span : Span} {m : Method}
    {k : StackKind} (hk : s.builtins.stackKind? t = some k) (h : s.operator t op span = .ok m) :
    ∃ n code, s.builtins.numeric? t.cls = some n ∧ n.kind.onStack = k ∧
      n.template? op = some code ∧ s.useOperator m = code ∧ m.sig.returnType = t ∧
      m.sig.params = (["a", "b"].take op.arity).map fun p => (p, t) := by
  obtain ⟨hm, -⟩ := operator_eq_ok.1 h
  obtain ⟨plain, string | ⟨n, hn, rfl⟩⟩ := Builtins.stackKind?_eq_some hk
  · rw [string, hκ.string op] at hm
    cases hm
  · obtain ⟨key, code, -, ht, rfl⟩ := hκ.installed.numeric hn hm
    exact ⟨n, code, hn, rfl, ht, rfl, plain.symm, by rw [plain]; rfl⟩

mutual

theorem codeWith_yields (hκ : κ.Shows s) (hst : s.hasReceiver = false → s.Stands κ standIn) :
    ∀ {e : Expr} {c : Code}, s.OperandsExact e → s.codeWith standIn e = .ok c → s.Yields κ e c
  | .int v span, c, _, h => by
    simp only [codeWith, Except.ok.injEq] at h
    exact h ▸ .int hκ.installed.builtins v span
  | .float v span, c, _, h => by
    simp only [codeWith, Except.ok.injEq] at h
    exact h ▸ .float hκ.installed.builtins v span
  | .str v span, c, _, h => by
    simp only [codeWith, Except.ok.injEq] at h
    subst h
    exact .inr ⟨.object, Builtins.stackKind?_string _, .one fun _ => rfl⟩
  | .ident name span, c, _, h => by
    rw [codeWith] at h
    exact .name hκ hst h
  | .binary op left right span, c, hx, h => by
    have hb := hκ.installed.builtins
    rw [OperandsExact] at hx
    obtain ⟨⟨inLeft, exactLeft⟩, inRight, exactRight⟩ := hx
    simp only [codeWith, bind_eq_ok] at h
    obtain ⟨l, hl, l', vl, m, hm, r, hr, r', vr, h⟩ := h
    split at h
    · cases h
    next wanted =>
    cases h
    obtain ⟨rfl, k, hk, turnsLeft⟩ := (codeWith_yields hκ hst inLeft hl).needed hb hl exactLeft vl
    obtain ⟨rfl, k', hk', turnsRight⟩ :=
      (codeWith_yields hκ hst inRight hr).needed hb hr exactRight vr
    obtain ⟨n, code, -, -, template, use, result, params⟩ := operator_numeric hκ hk hm
    -- the second operand has the type of the first one
    have same : r.type = l.type := by
      rw [params] at wanted
      cases op <;> simpa [BinaryOp.operation, Operation.arity] using wanted
    obtain rfl : k' = k := by
      rw [same, hk] at hk'
      exact (Option.some.inj hk').symm
    refine .inr ⟨k', result ▸ hk, ?_⟩
    rw [use, List.append_assoc]
    exact (turnsRight.on turnsLeft).append (Kinding.turns_template template k')
  | .unary op operand span, c, hx, h => by
    have hb := hκ.installed.builtins
    simp only [codeWith, bind_eq_ok] at h
    obtain ⟨o, ho, o', vo, h⟩ := h
    cases op with
    | not =>
      rw [OperandsExact] at hx
      obtain ⟨inside, exact'⟩ := hx
      obtain ⟨rfl, k, hk, turns⟩ := (codeWith_yields hκ hst inside ho).needed hb ho exact' vo
      simp only [bind_eq_ok] at h
      obtain ⟨m, hm, h⟩ := h
      cases h
      obtain ⟨n, code, -, rfl, template, use, result, -⟩ := operator_numeric hκ hk hm
      cases template
      refine .inr ⟨_, result ▸ hk, ?_⟩
      rw [use]
      exact turns.append (κ.turns_not n)
    | neg | pos =>
      rw [OperandsExact] at hx
      obtain ⟨hv, rfl⟩ := needValue_eq_ok.1 vo
      obtain ⟨k, hk, turns⟩ := (codeWith_yields hκ hst hx ho).value hv
      dsimp only at h
      split at h
      · cases h
        exact .inr ⟨k, hk, turns.append (κ.turns_sign _ _)⟩
      · cases h
  | .call name nameSpan args span, c, hx, h => by
    simp only [codeWith, bind_eq_ok] at h
    obtain ⟨sig, hsig, h⟩ := h
    split at h
    · cases h
    next count =>
    simp only [bind_eq_ok] at h
    obtain ⟨given, hg, h⟩ := h
    cases h
    rw [OperandsExact] at hx
    obtain ⟨cls, m, hcls, hm, rfl⟩ := callee_eq_ok hsig
    obtain ⟨ks, kinds, call, result⟩ := hκ.calls cls hcls m hm
    have arguments := argsWith_turns hκ hst hx (not_not.1 count) kinds hg
    have receiver : κ.Turns (if m.sig.takesReceiver then [.ldarg 0] else []) []
        (if m.sig.takesReceiver then [.object] else []) := by
      cases takes : m.sig.takesReceiver with
      | false => exact .nil κ []
      | true => exact .ldarg (hκ.receiver (receiver_of_callee hsig takes))
    rcases result with void | number
    · rw [Builtins.stackKind?_void hκ.installed.builtins void] at call
      exact .inl ⟨by simp [isVoid, void], (arguments.on receiver).append (.call call _ _)⟩
    · obtain ⟨k, hk⟩ := Option.isSome_iff_exists.1 number
      rw [hk] at call
      exact .inr ⟨k, hk, (arguments.on receiver).append (.call call _ _)⟩
  | .cast operand target targetSpan span, c, hx, h => by
    have inside : s.OperandsExact operand := by rwa [OperandsExact] at hx
    simp only [codeWith, bind_eq_ok] at h
    obtain ⟨o, ho, o', vo, type, -, h⟩ := h
    obtain ⟨hv, rfl⟩ := needValue_eq_ok.1 vo
    obtain ⟨k, -, turns⟩ := (codeWith_yields hκ hst inside ho).value hv
    split at h
    · next n' n _ hn value =>
      cases h
      refine .inr ⟨n.kind.onStack, ?_, turns.append (.conv κ _ _)⟩
      rw [TypeRef.eq_of_isAddress value]
      exact Builtins.stackKind?_numeric hκ.installed.builtins hn
    · cases h

theorem argsWith_turns (hκ : κ.Shows s) (hst : s.hasReceiver = false → s.Stands κ standIn)
    {name : String} :
    ∀ {args : List Expr} {params : List (String × TypeRef)} {ks : List StackKind}
      {code : List Instruction}, s.ArgsExact args → args.length = params.length →
      List.Forall₂ (fun p k => s.builtins.stackKind? p.2 = some k) params ks →
      s.argsWith standIn name args params = .ok code → κ.Turns code [] ks.reverse
  | arg :: args, (param, type) :: params, k :: ks, code, hx, length, kinds, h => by
    rw [ArgsExact] at hx
    obtain ⟨⟨inside, exact'⟩, rest⟩ := hx
    simp only [argsWith_cons, bind_eq_ok, Except.ok.injEq] at h
    obtain ⟨here, hh, more, hr, rfl⟩ := h
    obtain ⟨hk, kinds⟩ := List.forall₂_cons.1 kinds
    have value : type.isAddress = false := Builtins.isAddress_of_stackKind? hk
    have first : κ.Turns here [] [k] := by
      obtain ⟨address, -⟩ | ⟨-, c, hc, hv, same, rfl⟩ := argCode_eq_ok.1 hh
      · rw [value] at address
        cases address
      obtain ⟨k', hk', turns⟩ := (codeWith_yields hκ hst inside hc).exact
        hκ.installed.builtins hv hc exact'
      rw [same, hk] at hk'
      exact Option.some.inj hk' ▸ turns
    have later := argsWith_turns hκ hst rest (Nat.succ.inj length) kinds hr
    rw [List.reverse_cons]
    exact later.on first
  | [], [], [], code, _, _, _, h => by
    simp only [argsWith, Except.ok.injEq] at h
    exact h ▸ .nil κ []

end

theorem exists_standIn {n : Nat} {inlining : List String} {e : Expr} {c : Code}
    (h : s.codeInside n inlining e = .ok c) : ∃ standIn, s.codeWith standIn e = .ok c := by
  cases n <;> exact ⟨_, h⟩

theorem codeInside_yields (hκ : κ.Shows s) (defaults : s.hasReceiver = false → s.DefaultsExact)
    {n : Nat} {inlining : List String} {e : Expr} {c : Code} (hx : s.OperandsExact e)
    (h : s.codeInside n inlining e = .ok c) : s.Yields κ e c := by
  induction n generalizing inlining e c with
  | zero =>
    have none' : s.Stands κ fun _ => none := by
      intro _ _ _ _ _ hs
      cases hs
    exact codeWith_yields hκ (fun _ => none') hx h
  | succ n ih =>
    rw [codeInside_succ] at h
    refine codeWith_yields hκ (fun static cls hcls x hm code hs => ?_) hx h
    obtain ⟨-, default, c, hd, hc, hv, same, rfl⟩ := standsInside_eq_ok.1 hs
    obtain ⟨inside, exact'⟩ := defaults static cls hcls x hm default hd
    have yields := ih inside hc
    obtain ⟨standIn, hc⟩ := exists_standIn hc
    rw [← same]
    exact yields.exact hκ.installed.builtins hv hc exact'

theorem code_yields (hκ : κ.Shows s) (defaults : s.hasReceiver = false → s.DefaultsExact)
    {e : Expr} {c : Code} (hx : s.OperandsExact e) (h : s.code e = .ok c) : s.Yields κ e c :=
  codeInside_yields hκ defaults hx h

theorem valueCode_turns (hκ : κ.Shows s) (defaults : s.hasReceiver = false → s.DefaultsExact)
    {e : Expr} {c : Code} (hx : s.ValueExact e) (h : s.valueCode e = .ok c) :
    ∃ k, s.builtins.stackKind? c.type = some k ∧ κ.Turns c.instructions [] [k] := by
  obtain ⟨hc, hv⟩ := valueCode_eq_ok.1 h
  obtain ⟨standIn, compiled⟩ := exists_standIn hc
  exact (code_yields hκ defaults hx.1 hc).exact hκ.installed.builtins hv compiled hx.2

end Scope
end ClassAsm
