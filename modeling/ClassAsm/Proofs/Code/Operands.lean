import ClassAsm.Proofs.Result
import ClassAsm.Proofs.Registry.Installed

/-! The code of expressions. It has no branches and no returns, and leaves as many operands as its
type says. There are two exceptions: a name of class `void` leaves an operand all the same, and a
`!=` whose method gives nothing compares an operand that is not there. Neither can be part of a
larger expression. -/

namespace ClassAsm.Scope

open Instruction

/-- Names and `!=` may leave more or less than their type says, if that is `void`. -/
def mayStray : Expr → Bool
  | .ident .. => true
  | .binary .ne .. => true
  | _ => false

def Tame (s : Scope) (e : Expr) (t : TypeRef) : Prop := mayStray e = true → s.isVoid t = false

variable {s : Scope}

theorem pushes_of_not_isVoid {t : TypeRef} (h : s.isVoid t = false) : s.pushes t = 1 := by
  simp [pushes, h]

theorem isVoid_of_numeric? (hs : s.registry.Installed s.builtins) {t : TypeRef} {n : Numeric}
    (h : s.builtins.numeric? t.cls = some n) : s.isVoid t = false := by
  simpa [isVoid] using Builtins.ne_void_of_numeric? hs.builtins h

theorem needValue_eq_ok {span : Span} {c c' : Code} :
    s.needValue span c = .ok c' ↔ s.isVoid c.type = false ∧ c = c' := by
  unfold needValue
  cases h : s.isVoid c.type <;> simp

theorem resolveType_eq_ok {text : String} {span : Span} {t : TypeRef} :
    s.resolveType text span = .ok t ↔
      s.registry.resolve? (TypeName.parse text) s.nspace = some t := by
  unfold resolveType
  split
  · next found => rw [found, Except.ok.injEq, Option.some.injEq]
  · next missing => simp [missing]

theorem operator_eq_ok {t : TypeRef} {op : Operation} {span : Span} {m : Method} :
    s.operator t op span = .ok m ↔
      (s.registry.class? t.cls).bind (·.operator? op) = some m ∧
        m.sig.params.length = op.arity := by
  unfold operator
  cases (s.registry.class? t.cls).bind (·.operator? op) with
  | none => simp
  | some m' =>
    simp only [Option.some.injEq]
    constructor
    · intro h
      split at h
      · next hl => cases h; exact ⟨rfl, hl⟩
      · cases h
    · rintro ⟨rfl, hl⟩
      rw [if_pos hl]

/-- An operator of a numeric class is a template, and any other is called. -/
theorem useOperator_cases (hs : s.registry.Installed s.builtins) {t : TypeRef} {op : Operation}
    {span : Span} {m : Method} (h : s.operator t op span = .ok m) :
    s.useOperator m =
        [.call (s.registry.callTarget m.sig) op.arity (s.pushes m.sig.returnType)] ∨
      ∃ n key code, s.builtins.numeric? t.cls = some n ∧ n.template? op = some code ∧
        m = n.method t.cls op key code := by
  obtain ⟨hm, ha⟩ := operator_eq_ok.1 h
  cases hn : s.builtins.numeric? t.cls with
  | none =>
    left
    rw [useOperator, hs.pending hn hm, ← ha]
  | some n =>
    obtain ⟨key, code, -, ht, same⟩ := hs.numeric hn hm
    exact .inr ⟨n, key, code, rfl, ht, same⟩

theorem useOperator_straight (hs : s.registry.Installed s.builtins) {t : TypeRef} {op : Operation}
    {span : Span} {m : Method} (h : s.operator t op span = .ok m) : Straight (s.useOperator m) := by
  obtain called | ⟨n, key, code, -, ht, rfl⟩ := useOperator_cases hs h
  · exact called ▸ Straight.one rfl
  · exact Numeric.template?_straight ht

theorem useOperator_moves (hs : s.registry.Installed s.builtins) {t : TypeRef} {op : Operation}
    {span : Span} {m : Method} (h : s.operator t op span = .ok m) :
    Moves (s.useOperator m) op.arity (s.pushes m.sig.returnType) := by
  obtain called | ⟨n, key, code, hn, ht, rfl⟩ := useOperator_cases hs h
  · exact called ▸ Moves.one _
  · have hp : s.pushes (n.method t.cls op key code).sig.returnType = 1 :=
      pushes_of_not_isVoid (isVoid_of_numeric? hs hn)
    rw [hp]
    exact Numeric.template?_moves ht

/-- An argument that is passed by its value. -/
def passCode (s : Scope) (callee param : String) (type : TypeRef) (arg : Expr)
    (code : Except Failure Code) : Except Failure (List Instruction) := do
  let c ← s.needValue arg.span (← code)
  if c.type = type then .ok c.instructions
  else .error ((Fault.argumentMismatch param callee (s.showType type)
    (s.showType c.type)).at arg.span)

theorem passCode_eq_ok {callee param : String} {type : TypeRef} {arg : Expr}
    {code : Except Failure Code} {given : List Instruction} :
    s.passCode callee param type arg code = .ok given ↔
      ∃ c, code = .ok c ∧ s.isVoid c.type = false ∧ c.type = type ∧ c.instructions = given := by
  simp only [passCode, bind_eq_ok, needValue_eq_ok]
  constructor
  · rintro ⟨c, hc, _, ⟨hv, rfl⟩, h⟩
    split at h
    · next same => exact ⟨c, hc, hv, same, Except.ok.inj h⟩
    · cases h
  · rintro ⟨c, hc, hv, same, rfl⟩
    exact ⟨c, hc, c, ⟨hv, rfl⟩, if_pos same⟩

/-- The code of an argument for its parameter. -/
def argCode (s : Scope) (standIn : StandIn) (name param : String) (type : TypeRef) (arg : Expr) :
    Except Failure (List Instruction) :=
  if type.isAddress then s.addressArgument name param type arg
  else do
    let c ← s.needValue arg.span (← s.codeWith standIn arg)
    if c.type = type then .ok c.instructions
    else .error ((Fault.argumentMismatch param name (s.showType type)
      (s.showType c.type)).at arg.span)

theorem argCode_eq_ok {standIn : StandIn} {name param : String} {type : TypeRef} {arg : Expr}
    {given : List Instruction} : s.argCode standIn name param type arg = .ok given ↔
      type.isAddress = true ∧ s.addressArgument name param type arg = .ok given ∨
      type.isAddress = false ∧ ∃ c, s.codeWith standIn arg = .ok c ∧ s.isVoid c.type = false ∧
        c.type = type ∧ c.instructions = given := by
  have passes : s.argCode standIn name param type arg =
      if type.isAddress then s.addressArgument name param type arg
      else s.passCode name param type arg (s.codeWith standIn arg) := rfl
  rw [passes]
  cases type.isAddress <;> simp [passCode_eq_ok]

/-- The code of a default in the place of its field. -/
def fill (s : Scope) (f : Field) (default : Expr) (code : Except Failure Code) :
    Except Failure (List Instruction) := do
  let c ← s.needValue default.span (← code)
  if c.type = f.type then .ok c.instructions
  else .error ((Fault.defaultMismatch f.name (s.showType f.type)
    (s.showType c.type)).at default.span)

theorem fill_eq_ok {f : Field} {default : Expr} {code : Except Failure Code}
    {filled : List Instruction} : s.fill f default code = .ok filled ↔
      ∃ c, code = .ok c ∧ s.isVoid c.type = false ∧ c.type = f.type ∧
        c.instructions = filled := by
  simp only [fill, bind_eq_ok, needValue_eq_ok]
  constructor
  · rintro ⟨c, hc, _, ⟨hv, rfl⟩, h⟩
    split at h
    · next type => exact ⟨c, hc, hv, type, Except.ok.inj h⟩
    · cases h
  · rintro ⟨c, hc, hv, type, rfl⟩
    exact ⟨c, hc, c, ⟨hv, rfl⟩, if_pos type⟩

/-- What stands for a field inside of the defaults of the given fields. The number bounds how many
more of them can be nested. -/
def standsInside (s : Scope) (n : Nat) (inlining : List String) : StandIn := fun f =>
  if f.name ∈ inlining then none
  else f.default.map fun default => s.fill f default (s.codeInside n (f.name :: inlining) default)

theorem codeInside_succ (n : Nat) (inlining : List String) (e : Expr) :
    s.codeInside (n + 1) inlining e = s.codeWith (s.standsInside n inlining) e := rfl

theorem standsInside_eq_ok {n : Nat} {inlining : List String} {f : Field}
    {code : List Instruction} : s.standsInside n inlining f = some (.ok code) ↔
      f.name ∉ inlining ∧ ∃ default c, f.default = some default ∧
        s.codeInside n (f.name :: inlining) default = .ok c ∧ s.isVoid c.type = false ∧
        c.type = f.type ∧ c.instructions = code := by
  unfold standsInside
  split
  · next known => simp [known]
  · next new =>
    rw [Option.map_eq_some_iff]
    simp only [fill_eq_ok, new, not_false_eq_true, true_and, exists_and_left]

theorem argsWith_cons (standIn : StandIn) (name param : String) (type : TypeRef) (arg : Expr)
    (args : List Expr) (params : List (String × TypeRef)) :
    s.argsWith standIn name (arg :: args) ((param, type) :: params) = (do
      let here ← s.argCode standIn name param type arg
      let rest ← s.argsWith standIn name args params
      .ok (here ++ rest)) := by
  rw [argsWith, argCode]
  split
  · rfl
  · simp only [bind_assoc]
    congr 1
    funext c
    congr 1
    funext c'
    split <;> rfl

/-- Straight code that leaves `n` operands, as far as that is known. -/
structure Leaves (code : List Instruction) (known : Prop) (n : Nat) : Prop where
  straight : Straight code
  moves : known → Moves code 0 n

/-- Code that leaves one operand. -/
abbrev LeavesOne (code : List Instruction) : Prop := Leaves code True 1

theorem Leaves.one {code : List Instruction} {e : Expr} {t : TypeRef}
    (h : Leaves code (s.Tame e t) (s.pushes t)) (hv : s.isVoid t = false) : LeavesOne code :=
  ⟨h.straight, fun _ => pushes_of_not_isVoid hv ▸ h.moves fun _ => hv⟩

theorem LeavesOne.single {i : Instruction} (hc : i.isControl = false) (hi : i.effect = ⟨0, 1⟩) :
    LeavesOne [i] :=
  ⟨Straight.one hc, fun _ => by simpa [hi] using Moves.one i⟩

theorem LeavesOne.then {a b : List Instruction} {known : Prop} {n : Nat} (ha : LeavesOne a)
    (hb : Straight b) (hm : known → Moves b 1 n) : Leaves (a ++ b) known n :=
  ⟨ha.straight.append hb, fun hk => (ha.moves trivial).append (hm hk)⟩

theorem LeavesOne.weaken {code : List Instruction} {known : Prop} {t : TypeRef}
    (h : LeavesOne code) (ht : known → s.isVoid t = false) : Leaves code known (s.pushes t) :=
  ⟨h.straight, fun hk => pushes_of_not_isVoid (ht hk) ▸ h.moves trivial⟩

theorem loadLocal_leaves (slot : Nat) (type : TypeRef) :
    LeavesOne (s.loadLocal slot type).instructions := by
  unfold loadLocal
  split
  · exact (LeavesOne.single rfl rfl).then (b := [.ldind _]) (Straight.one rfl) fun _ => Moves.one _
  · exact LeavesOne.single rfl rfl

theorem addressArgument_leaves {callee param : String} {type : TypeRef} {arg : Expr}
    {code : List Instruction} (h : s.addressArgument callee param type arg = .ok code) :
    LeavesOne code := by
  unfold addressArgument at h
  simp only at h
  split at h
  · cases h
  · split at h
    · cases h
      split <;> exact LeavesOne.single rfl rfl
    · cases h

/-- A stand-in gives code that leaves one operand. -/
def StandsIn (standIn : StandIn) : Prop := ∀ f code, standIn f = some (.ok code) → LeavesOne code

variable {standIn : StandIn}

theorem nameCode_leaves (hst : StandsIn standIn) {name : String} {span : Span} {c : Code}
    (h : s.nameCode standIn name span = .ok c) : LeavesOne c.instructions := by
  unfold nameCode at h
  split at h
  · cases h
    exact loadLocal_leaves _ _
  simp only at h
  split at h
  · cases h
  split at h
  · cases h
    exact LeavesOne.single rfl rfl
  split at h
  · cases h
    exact (LeavesOne.single (i := .ldarg 0) rfl rfl).then (b := [.ldfld _]) (Straight.one rfl)
      fun _ => Moves.one _
  split at h
  · cases h
  · next code hc =>
    obtain ⟨_, rfl, rfl⟩ := map_eq_ok.1 h
    exact hst _ _ hc

theorem intCode_leaves (hs : s.registry.Installed s.builtins) (v : Nat) (known : Prop) :
    Leaves (s.intCode v).instructions known (s.pushes (s.intCode v).type) := by
  unfold intCode
  split
  · exact (LeavesOne.single rfl rfl).weaken fun _ =>
      isVoid_of_numeric? hs (n := .i32) (by simp [hs.builtins, Builtins.numeric?])
  · exact (LeavesOne.single rfl rfl).weaken fun _ =>
      isVoid_of_numeric? hs (n := .i64) (by simp [hs.builtins, Builtins.numeric?])

theorem floatCode_leaves (hs : s.registry.Installed s.builtins) (v : Binary64) (known : Prop) :
    Leaves (s.floatCode v).instructions known (s.pushes (s.floatCode v).type) := by
  unfold floatCode
  split
  · exact (LeavesOne.single rfl rfl).weaken fun _ =>
      isVoid_of_numeric? hs (n := .f64) (by simp [hs.builtins, Builtins.numeric?])
  · exact (LeavesOne.single rfl rfl).weaken fun _ =>
      isVoid_of_numeric? hs (n := .f32) (by simp [hs.builtins, Builtins.numeric?])

/-- Two operands and their operator. What `!=` compares with zero has to be there. -/
theorem binaryCode_leaves (hs : s.registry.Installed s.builtins) {op : BinaryOp} {t : TypeRef}
    {span : Span} {m : Method} (hm : s.operator t op.operation span = .ok m)
    {left right : List Instruction} (hl : LeavesOne left) (hr : LeavesOne right) {known : Prop}
    (hk : op = .ne → known → s.isVoid m.sig.returnType = false) :
    Leaves (left ++ right ++ s.useOperator m ++ if op = .ne then [.ldcI4 0, .arith .ceq] else [])
      known (s.pushes m.sig.returnType) := by
  have harity : op.operation.arity = 2 := by cases op <;> rfl
  have huse : Moves (s.useOperator m) 2 (s.pushes m.sig.returnType) :=
    harity ▸ useOperator_moves hs hm
  have both : Moves (left ++ right ++ s.useOperator m) 0 (s.pushes m.sig.returnType) :=
    ((hl.moves trivial).append ((hr.moves trivial).frame 1)).append huse
  have straight := (hl.straight.append hr.straight).append (useOperator_straight hs hm)
  by_cases hne : op = .ne
  · subst hne
    refine ⟨straight.append (by simp [Straight, isControl]), ?_⟩
    intro k
    rw [pushes_of_not_isVoid (hk rfl k)] at both ⊢
    exact both.append (((Moves.one (.ldcI4 0)).frame 1).append (Moves.one (.arith .ceq)))
  · rw [if_neg hne, List.append_nil]
    exact ⟨straight, fun _ => both⟩

/-- A receiver, if there is one, and the arguments are what a call takes. -/
theorem callCode_leaves {given : List Instruction} {n : Nat} (h : Leaves given True n)
    (takesReceiver : Bool) (target : String) (pushes : Nat) (known : Prop) :
    let receiver := if takesReceiver then [.ldarg 0] else []
    Leaves (receiver ++ given ++ [.call target (receiver.length + n) pushes]) known pushes := by
  intro receiver
  have hr : Straight receiver ∧ Moves receiver 0 receiver.length := by
    cases takesReceiver with
    | true => exact ⟨Straight.one rfl, Moves.one _⟩
    | false => exact ⟨Straight.nil, Moves.nil⟩
  refine ⟨(hr.1.append h.straight).append (Straight.one rfl), ?_⟩
  intro _
  have before := hr.2.append ((h.moves trivial).frame receiver.length)
  exact before.append (Moves.one (.call _ _ _))

mutual

theorem codeWith_leaves (hs : s.registry.Installed s.builtins) (hst : StandsIn standIn) :
    ∀ {e : Expr} {c : Code}, s.codeWith standIn e = .ok c →
      Leaves c.instructions (s.Tame e c.type) (s.pushes c.type)
  | .int v span, c, h => by
    simp only [codeWith, Except.ok.injEq] at h
    subst h
    exact intCode_leaves hs v _
  | .float v span, c, h => by
    simp only [codeWith, Except.ok.injEq] at h
    subst h
    exact floatCode_leaves hs v _
  | .str v span, c, h => by
    simp only [codeWith, Except.ok.injEq] at h
    subst h
    exact (LeavesOne.single rfl rfl).weaken fun _ => by simp [isVoid, hs.builtins]
  | .ident name span, c, h => by
    rw [codeWith] at h
    exact (nameCode_leaves hst h).weaken fun tame => tame rfl
  | .binary op left right span, c, h => by
    simp only [codeWith, bind_eq_ok, needValue_eq_ok] at h
    obtain ⟨l, hl, _, ⟨hlv, rfl⟩, m, hm, r, hr, _, ⟨hrv, rfl⟩, h⟩ := h
    split at h
    · cases h
    cases h
    have hleft := (codeWith_leaves hs hst hl).one hlv
    have hright := (codeWith_leaves hs hst hr).one hrv
    exact binaryCode_leaves hs hm hleft hright fun hne tame => tame (by simp [mayStray, hne])
  | .unary op operand span, c, h => by
    simp only [codeWith, bind_eq_ok, needValue_eq_ok] at h
    obtain ⟨o, ho, _, ⟨hov, rfl⟩, h⟩ := h
    have hoperand := (codeWith_leaves hs hst ho).one hov
    cases op with
    | not =>
      simp only [bind_eq_ok] at h
      obtain ⟨m, hm, h⟩ := h
      cases h
      exact hoperand.then (useOperator_straight hs hm) fun _ => useOperator_moves hs hm
    | neg =>
      simp only [if_true] at h
      split at h
      · cases h
        have hp := pushes_of_not_isVoid hov
        exact hoperand.then (b := [.neg]) (Straight.one rfl) fun _ => hp.symm ▸ Moves.one _
      · cases h
    | pos =>
      simp only [reduceCtorEq, if_false, List.append_nil] at h
      split at h
      · cases h
        exact hoperand.weaken fun _ => hov
      · cases h
  | .call name nameSpan args span, c, h => by
    simp only [codeWith, bind_eq_ok] at h
    obtain ⟨sig, hsig, h⟩ := h
    split at h
    · cases h
    next hl =>
    simp only [bind_eq_ok] at h
    obtain ⟨given, hg, h⟩ := h
    cases h
    exact callCode_leaves (argsWith_leaves hs hst (not_not.1 hl) hg) _ _ _ _
  | .cast operand target targetSpan span, c, h => by
    simp only [codeWith, bind_eq_ok, needValue_eq_ok] at h
    obtain ⟨o, ho, _, ⟨hov, rfl⟩, type, -, h⟩ := h
    split at h
    · next n _ hn _ =>
      cases h
      have hp := pushes_of_not_isVoid (isVoid_of_numeric? hs hn)
      exact ((codeWith_leaves hs hst ho).one hov).then (b := [.conv n.kind]) (Straight.one rfl)
        fun _ => hp.symm ▸ Moves.one _
    · cases h

theorem argsWith_leaves (hs : s.registry.Installed s.builtins) (hst : StandsIn standIn)
    {name : String} : ∀ {args : List Expr} {params : List (String × TypeRef)}
      {code : List Instruction}, args.length = params.length →
      s.argsWith standIn name args params = .ok code → Leaves code True params.length
  | [], [], code, _, h => by
    simp only [argsWith, Except.ok.injEq] at h
    subst h
    exact ⟨Straight.nil, fun _ => Moves.nil⟩
  | arg :: args, (param, type) :: params, code, hl, h => by
    simp only [argsWith_cons, bind_eq_ok, Except.ok.injEq] at h
    obtain ⟨here, hh, rest, hr, rfl⟩ := h
    have hrest := argsWith_leaves hs hst (by simpa using hl) hr
    have hone : LeavesOne here := by
      obtain ⟨-, hh⟩ | ⟨-, c, hc, hcv, -, rfl⟩ := argCode_eq_ok.1 hh
      · exact addressArgument_leaves hh
      · exact (codeWith_leaves hs hst hc).one hcv
    apply hone.then hrest.straight
    intro _
    have := (hrest.moves trivial).frame 1
    rwa [Nat.add_comm 1 params.length] at this

end

/-! Defaults that stand in for fields are values themselves, so the same holds inside them. -/

theorem codeInside_leaves (hs : s.registry.Installed s.builtins) {n : Nat} {inlining : List String}
    {e : Expr} {c : Code} (h : s.codeInside n inlining e = .ok c) :
    Leaves c.instructions (s.Tame e c.type) (s.pushes c.type) := by
  induction n generalizing inlining e c with
  | zero => exact codeWith_leaves hs (by simp [StandsIn]) h
  | succ n ih =>
    rw [codeInside_succ] at h
    refine codeWith_leaves hs (fun f code hf => ?_) h
    obtain ⟨-, default, c, -, hc, hcv, -, rfl⟩ := standsInside_eq_ok.1 hf
    exact (ih hc).one hcv

theorem code_leaves (hs : s.registry.Installed s.builtins) {e : Expr} {c : Code}
    (h : s.code e = .ok c) : Leaves c.instructions (s.Tame e c.type) (s.pushes c.type) :=
  codeInside_leaves hs h

theorem valueCode_eq_ok {e : Expr} {c : Code} :
    s.valueCode e = .ok c ↔ s.code e = .ok c ∧ s.isVoid c.type = false := by
  simp only [valueCode, bind_eq_ok, needValue_eq_ok]
  exact ⟨fun ⟨_, h, hv, he⟩ => he ▸ ⟨h, hv⟩, fun ⟨h, hv⟩ => ⟨c, h, hv, rfl⟩⟩

theorem valueCode_leaves (hs : s.registry.Installed s.builtins) {e : Expr} {c : Code}
    (h : s.valueCode e = .ok c) : LeavesOne c.instructions := by
  obtain ⟨hc, hv⟩ := valueCode_eq_ok.1 h
  exact (code_leaves hs hc).one hv

end ClassAsm.Scope
