import ClassAsm.Proofs.Draft.Growth
import ClassAsm.Proofs.Code.Operands
import ClassAsm.Proofs.Machine.Meaning
import ClassAsm.Proofs.Trimming.Host

/-! The names that an expression looks up, and its code among other locals. As long as these names
are locals of the same types in both places, or of neither, the code differs in the numbers of
slots only. -/

namespace ClassAsm

mutual

/-- The names in an expression that stand for values. -/
def Expr.names : Expr → List String
  | .int .. | .float .. | .str .. => []
  | .ident name _ => [name]
  | .binary _ left right _ => left.names ++ right.names
  | .unary _ operand _ => operand.names
  | .call _ _ args _ => Expr.namesOfAll args
  | .cast operand _ _ _ => operand.names

def Expr.namesOfAll : List Expr → List String
  | [] => []
  | e :: es => e.names ++ Expr.namesOfAll es

end

namespace Locals

/-- A name is a local of the same type in both, or of neither. -/
def Agree (l l' : Locals) (name : String) : Prop :=
  (l.find? name).map Prod.snd = (l'.find? name).map Prod.snd

variable {l l' : Locals} {name : String}

theorem Agree.some (h : Agree l l' name) {slot : Nat} {type : TypeRef}
    (hl : l.find? name = some (slot, type)) : ∃ slot', l'.find? name = some (slot', type) := by
  rw [Agree, hl] at h
  obtain ⟨⟨slot', _⟩, hl', rfl⟩ := Option.map_eq_some_iff.1 h.symm
  exact ⟨slot', hl'⟩

theorem Agree.none (h : Agree l l' name) (hl : l.find? name = none) : l'.find? name = none := by
  rw [Agree, hl] at h
  exact Option.map_eq_none_iff.1 h.symm

end Locals

/-- Instructions that use a local. -/
inductive Access : (Nat → Instruction) → Prop where
  | load : Access .ldloc
  | store : Access .stloc
  | address : Access .ldloca

/-- The same instruction, with the slot of the same local. -/
inductive Renames (l l' : Locals) : Instruction → Instruction → Prop where
  | slot {make : Nat → Instruction} (ha : Access make) {name : String} {type : TypeRef}
      {slot slot' : Nat} (h : l.find? name = some (slot, type))
      (h' : l'.find? name = some (slot', type)) : Renames l l' (make slot) (make slot')
  | same {i : Instruction} (hs : i.slot? = none) (hc : i.isControl = false) : Renames l l' i i

/-- Code that differs in the numbers of slots only. -/
abbrev Renamed (l l' : Locals) : List Instruction → List Instruction → Prop :=
  List.Forall₂ (Renames l l')

theorem Renames.mono {l l' k k' : Locals} {i i' : Instruction} (h : Renames l l' i i')
    (hl : ∀ n x, l.find? n = some x → k.find? n = some x)
    (hl' : ∀ n x, l'.find? n = some x → k'.find? n = some x) : Renames k k' i i' := by
  cases h with
  | slot ha h h' => exact .slot ha (hl _ _ h) (hl' _ _ h')
  | same hs hc => exact .same hs hc

theorem Renamed.of_same {l l' : Locals} {code : List Instruction}
    (h : ∀ i ∈ code, i.slot? = none ∧ i.isControl = false) : Renamed l l' code code := by
  rw [Renamed, List.forall₂_same]
  exact fun i hi => .same (h i hi).1 (h i hi).2

theorem Renamed.append {l l' : Locals} {a a' b b' : List Instruction} (ha : Renamed l l' a a')
    (hb : Renamed l l' b b') : Renamed l l' (a ++ b) (a' ++ b') :=
  List.rel_append ha hb

theorem Renamed.between {l l' : Locals} {a a' z z' : Instruction} {c c' : List Instruction}
    (hc : Renamed l l' c c') (ha : Renames l l' a a') (hz : Renames l l' z z') :
    Renamed l l' ([a] ++ c ++ [z]) ([a'] ++ c' ++ [z']) :=
  .cons ha (hc.append (.cons hz .nil))

theorem Straight.between {a z : Instruction} {c : List Instruction} (hc : Straight c)
    (ha : a.isControl = false) (hz : z.isControl = false) : Straight ([a] ++ c ++ [z]) :=
  ((Straight.one ha).append hc).append (Straight.one hz)

namespace Scope

variable {s : Scope} {l : Locals} {standIn standIn' : StandIn}

def withLocals (s : Scope) (l : Locals) : Scope := { s with locals := l }

/-- The default that stands for a name. -/
def default? (s : Scope) (name : String) : Option Expr :=
  if (s.locals.find? name).isSome then none
  else (s.field? name).bind fun f => if f.isStatic || s.hasReceiver then none else f.default

/-- The names that an expression looks up, also inside the defaults that stand for its names. The
number bounds how many defaults can be nested. -/
def lookupsInside (s : Scope) : Nat → Expr → List String
  | 0, e => e.names
  | n + 1, e => e.names ++ e.names.flatMap fun name =>
    ((s.default? name).map (s.lookupsInside n)).getD []

def lookups (s : Scope) (e : Expr) : List String :=
  s.lookupsInside ((s.registry.class? s.owner).elim [] (·.fields)).length e

/-- What stands in for a field stands in for it among the other locals as well. -/
def StandsFor (s : Scope) (l : Locals) (standIn standIn' : StandIn) (name : String) : Prop :=
  ∀ f, s.locals.find? name = none → s.field? name = some f → f.isStatic = false →
    s.hasReceiver = false → ∀ code, standIn f = some (.ok code) →
      ∃ code', standIn' f = some (.ok code') ∧ Renamed s.locals l code code'

/-- The code among other locals. -/
structure Carries (s : Scope) (l : Locals) (c c' : Code) : Prop where
  type : c'.type = c.type
  code : Renamed s.locals l c.instructions c'.instructions

theorem needValue_of {span : Span} {c : Code} (h : s.isVoid c.type = false) :
    s.needValue span c = .ok c := needValue_eq_ok.2 ⟨h, rfl⟩

theorem useOperator_same (hs : s.registry.Installed s.builtins) {t : TypeRef} {op : Operation}
    {span : Span} {m : Method} (h : s.operator t op span = .ok m) :
    ∀ i ∈ s.useOperator m, i.slot? = none ∧ i.isControl = false := by
  obtain called | ⟨n, key, code, -, ht, rfl⟩ := useOperator_cases hs h
  · rw [called]
    simp [Instruction.slot?, Instruction.isControl]
  · intro i hi
    have computes := Numeric.template?_computes ht i hi
    cases i <;> first | exact ⟨rfl, rfl⟩ | cases computes

theorem nameCode_carries {name : String} {span : Span} {c : Code}
    (h : s.nameCode standIn name span = .ok c) (agree : s.locals.Agree l name)
    (stands : s.StandsFor l standIn standIn' name) :
    ∃ c', (s.withLocals l).nameCode standIn' name span = .ok c' ∧ s.Carries l c c' := by
  unfold nameCode at h ⊢
  split at h
  · next slot type hl =>
    cases h
    obtain ⟨slot', hl'⟩ := agree.some hl
    have load : Renames s.locals l (.ldloc slot) (.ldloc slot') := .slot .load hl hl'
    simp only [withLocals, hl']
    refine ⟨_, rfl, ?_⟩
    unfold loadLocal
    split
    · exact ⟨rfl, .cons load (.cons (.same rfl rfl) .nil)⟩
    · exact ⟨rfl, .cons load .nil⟩
  next hl =>
  split at h
  · cases h
  next f hf =>
  have hf' : (s.withLocals l).field? name = some f := hf
  simp only [show (s.withLocals l).locals.find? name = none from agree.none hl, hf']
  split at h
  · next hst =>
    cases h
    rw [if_pos hst]
    exact ⟨_, rfl, rfl, Renamed.of_same (by simp [Instruction.slot?, Instruction.isControl])⟩
  next hst =>
  rw [if_neg hst]
  split at h
  · next hr =>
    cases h
    rw [if_pos (show (s.withLocals l).hasReceiver = true from hr)]
    exact ⟨_, rfl, rfl, Renamed.of_same (by simp [Instruction.slot?, Instruction.isControl])⟩
  next hr =>
  rw [if_neg (show ¬(s.withLocals l).hasReceiver = true from hr)]
  split at h
  · cases h
  · next code hc =>
    obtain ⟨code, rfl, rfl⟩ := map_eq_ok.1 h
    obtain ⟨code', hc', same⟩ := stands f hl hf (by simpa using hst) (by simpa using hr) code hc
    rw [hc']
    exact ⟨_, rfl, rfl, same⟩

theorem addressArgument_carries {callee param : String} {type : TypeRef} {arg : Expr}
    {code : List Instruction} (h : s.addressArgument callee param type arg = .ok code)
    (agree : ∀ name ∈ arg.names, s.locals.Agree l name) :
    ∃ code', (s.withLocals l).addressArgument callee param type arg = .ok code' ∧
      Renamed s.locals l code code' := by
  cases arg with
  | ident name span =>
    simp only [addressArgument] at h ⊢
    split at h
    · cases h
    next slot got hl =>
    obtain ⟨slot', hl'⟩ := (agree name (by simp [Expr.names])).some hl
    simp only [withLocals, hl']
    split at h
    · next same =>
      cases h
      rw [if_pos same]
      refine ⟨_, rfl, ?_⟩
      split
      · exact .cons (.slot .load hl hl') .nil
      · exact .cons (.slot .address hl hl') .nil
    · cases h
  | _ => cases h

/-- The expression has code among the other locals as well. -/
def Transfers (s : Scope) (l : Locals) (standIn standIn' : StandIn) (e : Expr) : Prop :=
  ∀ c, s.codeWith standIn e = .ok c →
    ∃ c', (s.withLocals l).codeWith standIn' e = .ok c' ∧ s.Carries l c c'

theorem intCode_same (s : Scope) (n : Nat) :
    ∀ i ∈ (s.intCode n).instructions, i.slot? = none ∧ i.isControl = false := by
  unfold intCode
  split <;> simp [Instruction.slot?, Instruction.isControl]

theorem floatCode_same (s : Scope) (v : Binary64) :
    ∀ i ∈ (s.floatCode v).instructions, i.slot? = none ∧ i.isControl = false := by
  unfold floatCode
  split <;> simp [Instruction.slot?, Instruction.isControl]

theorem binary_transfers (hs : s.registry.Installed s.builtins) {op : BinaryOp} {left right : Expr}
    {span : Span} (hl : s.Transfers l standIn standIn' left)
    (hr : s.Transfers l standIn standIn' right) :
    s.Transfers l standIn standIn' (.binary op left right span) := by
  intro c h
  simp only [codeWith, bind_eq_ok, needValue_eq_ok] at h
  obtain ⟨a, ha, _, ⟨hav, rfl⟩, m, hm, b, hb, _, ⟨hbv, rfl⟩, h⟩ := h
  obtain ⟨a', ha', ta, ca⟩ := hl a ha
  obtain ⟨b', hb', tb, cb⟩ := hr b hb
  split at h
  · cases h
  next ht =>
  cases h
  have hav' : (s.withLocals l).isVoid a'.type = false := by rw [ta]; exact hav
  have hbv' : (s.withLocals l).isVoid b'.type = false := by rw [tb]; exact hbv
  have hm' : (s.withLocals l).operator a'.type op.operation span = .ok m := by rw [ta]; exact hm
  have negation : Renamed s.locals l (if op = .ne then [.ldcI4 0, .arith .ceq] else [])
      (if op = .ne then [.ldcI4 0, .arith .ceq] else []) :=
    Renamed.of_same (by split <;> simp [Instruction.slot?, Instruction.isControl])
  refine ⟨⟨a'.instructions ++ b'.instructions ++ s.useOperator m ++
      if op = .ne then [.ldcI4 0, .arith .ceq] else [], m.sig.returnType⟩, ?_, rfl,
    ((ca.append cb).append (Renamed.of_same (useOperator_same hs hm))).append negation⟩
  simp only [codeWith, ha', hb', ok_bind, needValue_of hav', needValue_of hbv', hm']
  rw [if_neg (by rw [ta, tb]; exact ht)]
  rfl

theorem unary_transfers (hs : s.registry.Installed s.builtins) {op : UnaryOp} {operand : Expr}
    {span : Span} (ho : s.Transfers l standIn standIn' operand) :
    s.Transfers l standIn standIn' (.unary op operand span) := by
  intro c h
  simp only [codeWith, bind_eq_ok, needValue_eq_ok] at h
  obtain ⟨a, ha, _, ⟨hav, rfl⟩, h⟩ := h
  obtain ⟨a', ha', ta, ca⟩ := ho a ha
  have hav' : (s.withLocals l).isVoid a'.type = false := by rw [ta]; exact hav
  cases op with
  | not =>
    simp only [bind_eq_ok] at h
    obtain ⟨m, hm, h⟩ := h
    cases h
    have hm' : (s.withLocals l).operator a'.type .not span = .ok m := by rw [ta]; exact hm
    refine ⟨⟨a'.instructions ++ s.useOperator m, m.sig.returnType⟩, ?_, rfl,
      ca.append (Renamed.of_same (useOperator_same hs hm))⟩
    simp only [codeWith, ha', ok_bind, needValue_of hav', hm']
    rfl
  | neg =>
    simp only [if_true] at h
    split at h
    · next numeric =>
      cases h
      refine ⟨⟨a'.instructions ++ [.neg], a'.type⟩, ?_, ta,
        ca.append (Renamed.of_same (by simp [Instruction.slot?, Instruction.isControl]))⟩
      simp only [codeWith, ha', ok_bind, needValue_of hav']
      rw [if_pos (by rw [ta]; exact numeric)]
      rfl
    · cases h
  | pos =>
    simp only [reduceCtorEq, if_false, List.append_nil] at h
    split at h
    · next numeric =>
      cases h
      refine ⟨⟨a'.instructions ++ [], a'.type⟩, ?_, ta, by simpa using ca⟩
      simp only [codeWith, ha', ok_bind, needValue_of hav']
      rw [if_pos (by rw [ta]; exact numeric)]
      rfl
    · cases h

theorem cast_transfers {operand : Expr} {target : String} {targetSpan span : Span}
    (ho : s.Transfers l standIn standIn' operand) :
    s.Transfers l standIn standIn' (.cast operand target targetSpan span) := by
  intro c h
  simp only [codeWith, bind_eq_ok, needValue_eq_ok] at h
  obtain ⟨a, ha, _, ⟨hav, rfl⟩, type, ht, h⟩ := h
  obtain ⟨a', ha', ta, ca⟩ := ho a ha
  have hav' : (s.withLocals l).isVoid a'.type = false := by rw [ta]; exact hav
  have ht' : (s.withLocals l).resolveType target targetSpan = .ok type := ht
  split at h
  · next n' n h₁ h₂ h₃ =>
    cases h
    refine ⟨⟨a'.instructions ++ [.conv n.kind], type⟩, ?_, rfl,
      ca.append (Renamed.of_same (by simp [Instruction.slot?, Instruction.isControl]))⟩
    have h₁' : (s.withLocals l).builtins.numeric? a'.type.cls = some n' := by rw [ta]; exact h₁
    have h₂' : (s.withLocals l).builtins.numeric? type.cls = some n := h₂
    simp only [codeWith, ha', ok_bind, needValue_of hav', ht', h₁', h₂', h₃]
  · cases h

/-- A call goes to the same method, with what its arguments are among the other locals. -/
theorem call_transfers {name : String} {nameSpan span : Span} {args : List Expr}
    (ha : ∀ params code, s.argsWith standIn name args params = .ok code →
      ∃ code', (s.withLocals l).argsWith standIn' name args params = .ok code' ∧
        Renamed s.locals l code code') :
    s.Transfers l standIn standIn' (.call name nameSpan args span) := by
  intro c h
  simp only [codeWith, bind_eq_ok] at h
  obtain ⟨sig, hsig, h⟩ := h
  split at h
  · cases h
  next hl =>
  simp only [bind_eq_ok] at h
  obtain ⟨given, hg, h⟩ := h
  cases h
  obtain ⟨given', hg', cg⟩ := ha _ _ hg
  have hsig' : (s.withLocals l).callee name nameSpan = .ok sig := hsig
  have receiver : Renamed s.locals l (if sig.takesReceiver then [.ldarg 0] else [])
      (if sig.takesReceiver then [.ldarg 0] else []) :=
    Renamed.of_same (by split <;> simp [Instruction.slot?, Instruction.isControl])
  let call : Instruction := .call (s.registry.callTarget sig)
    ((if sig.takesReceiver then [Instruction.ldarg 0] else []).length + sig.params.length)
    (s.pushes sig.returnType)
  have called : Renamed s.locals l [call] [call] := .cons (.same rfl rfl) .nil
  refine ⟨⟨(if sig.takesReceiver then [.ldarg 0] else []) ++ given' ++ [call], sig.returnType⟩,
    ?_, rfl, (receiver.append cg).append called⟩
  simp only [codeWith, hsig', ok_bind, hg']
  rw [if_neg hl]
  rfl

theorem argCode_carries {callee param : String} {type : TypeRef} {arg : Expr}
    {code : List Instruction} (h : s.argCode standIn callee param type arg = .ok code)
    (ht : s.Transfers l standIn standIn' arg)
    (agree : ∀ name ∈ arg.names, s.locals.Agree l name) :
    ∃ code', (s.withLocals l).argCode standIn' callee param type arg = .ok code' ∧
      Renamed s.locals l code code' := by
  obtain ⟨address, h⟩ | ⟨value, a, ha, hav, same, rfl⟩ := argCode_eq_ok.1 h
  · obtain ⟨code', h', renamed⟩ := addressArgument_carries h agree
    exact ⟨code', argCode_eq_ok.2 (.inl ⟨address, h'⟩), renamed⟩
  · obtain ⟨a', ha', ta, ca⟩ := ht a ha
    have hav' : (s.withLocals l).isVoid a'.type = false := by rw [ta]; exact hav
    exact ⟨a'.instructions, argCode_eq_ok.2 (.inr ⟨value, a', ha', hav', ta.trans same, rfl⟩), ca⟩

mutual

theorem codeWith_transfers (hs : s.registry.Installed s.builtins) : ∀ e : Expr,
    (∀ name ∈ e.names, s.locals.Agree l name ∧ s.StandsFor l standIn standIn' name) →
      s.Transfers l standIn standIn' e
  | .int v span, _, _, h => by
    rw [codeWith] at h ⊢
    cases h
    exact ⟨_, rfl, rfl, Renamed.of_same (intCode_same s v)⟩
  | .float v span, _, _, h => by
    rw [codeWith] at h ⊢
    cases h
    exact ⟨_, rfl, rfl, Renamed.of_same (floatCode_same s v)⟩
  | .str v span, _, _, h => by
    rw [codeWith] at h ⊢
    cases h
    exact ⟨_, rfl, rfl, Renamed.of_same (by simp [Instruction.slot?, Instruction.isControl])⟩
  | .ident name span, hn, _, h => by
    rw [codeWith] at h ⊢
    obtain ⟨agree, stands⟩ := hn name (by simp [Expr.names])
    exact nameCode_carries h agree stands
  | .binary op left right span, hn, c, h =>
    binary_transfers hs
      (codeWith_transfers hs left fun n hn' => hn n (by simp [Expr.names, hn']))
      (codeWith_transfers hs right fun n hn' => hn n (by simp [Expr.names, hn'])) c h
  | .unary op operand span, hn, c, h =>
    unary_transfers hs (codeWith_transfers hs operand hn) c h
  | .call name nameSpan args span, hn, c, h =>
    call_transfers (fun _ _ => argsWith_carries hs args hn) c h
  | .cast operand target targetSpan span, hn, c, h =>
    cast_transfers (codeWith_transfers hs operand hn) c h

theorem argsWith_carries (hs : s.registry.Installed s.builtins) {callee : String} :
    ∀ (args : List Expr), (∀ name ∈ Expr.namesOfAll args,
        s.locals.Agree l name ∧ s.StandsFor l standIn standIn' name) →
      ∀ {params : List (String × TypeRef)} {code : List Instruction},
        s.argsWith standIn callee args params = .ok code →
          ∃ code', (s.withLocals l).argsWith standIn' callee args params = .ok code' ∧
            Renamed s.locals l code code'
  | [], _, _, code, h => by
    simp only [argsWith, Except.ok.injEq] at h
    subst h
    exact ⟨[], by simp only [argsWith], .nil⟩
  | _ :: _, _, [], code, h => by
    simp only [argsWith, Except.ok.injEq] at h
    subst h
    exact ⟨[], by simp only [argsWith], .nil⟩
  | arg :: args, hn, (param, type) :: params, code, h => by
    simp only [argsWith_cons, bind_eq_ok, Except.ok.injEq] at h
    obtain ⟨here, hh, rest, hr, rfl⟩ := h
    have first : ∀ n ∈ arg.names, s.locals.Agree l n ∧ s.StandsFor l standIn standIn' n :=
      fun n hn' => hn n (by simp [Expr.namesOfAll, hn'])
    obtain ⟨rest', hr', cr⟩ := argsWith_carries hs args
      (fun n hn' => hn n (by simp [Expr.namesOfAll, hn'])) hr
    obtain ⟨here', hh', ch⟩ :=
      argCode_carries hh (codeWith_transfers hs arg first) fun n hn' => (first n hn').1
    refine ⟨here' ++ rest', ?_, ch.append cr⟩
    simp only [argsWith_cons, hh', hr', ok_bind]

end

theorem default?_eq_some {name : String} {f : Field} (hl : s.locals.find? name = none)
    (hf : s.field? name = some f) (hst : f.isStatic = false) (hr : s.hasReceiver = false) :
    s.default? name = f.default := by
  simp [default?, hl, hf, hst, hr]

theorem codeInside_carries (hs : s.registry.Installed s.builtins) {n : Nat}
    {inlining : List String} {e : Expr} {c : Code} (h : s.codeInside n inlining e = .ok c)
    (agree : ∀ name ∈ s.lookupsInside n e, s.locals.Agree l name) :
    ∃ c', (s.withLocals l).codeInside n inlining e = .ok c' ∧ s.Carries l c c' := by
  induction n generalizing inlining e c with
  | zero =>
    refine codeWith_transfers hs e (fun name hn => ⟨agree name hn, ?_⟩) c h
    intro f _ _ _ _ code hc
    cases hc
  | succ n ih =>
    rw [codeInside_succ] at h ⊢
    refine codeWith_transfers hs e (fun name hn =>
      ⟨agree name (by simp only [lookupsInside, List.mem_append]; exact .inl hn), ?_⟩) c h
    intro f hl hf hst hr code hc
    have default := default?_eq_some hl hf hst hr
    obtain ⟨new, value, a, hv, ha, hav, ht, rfl⟩ := standsInside_eq_ok.1 hc
    have inside : ∀ x ∈ s.lookupsInside n value, s.locals.Agree l x := fun x hx => by
      refine agree x ?_
      simp only [lookupsInside, List.mem_append, List.mem_flatMap]
      exact .inr ⟨name, hn, by rw [default, hv]; exact hx⟩
    obtain ⟨a', ha', ta, ca⟩ := ih ha inside
    have hav' : (s.withLocals l).isVoid a'.type = false := by rw [ta]; exact hav
    exact ⟨a'.instructions,
      standsInside_eq_ok.2 ⟨new, value, a', hv, ha', hav', ta.trans ht, rfl⟩, ca⟩

theorem code_carries (hs : s.registry.Installed s.builtins) {e : Expr} {c : Code}
    (h : s.code e = .ok c) (agree : ∀ name ∈ s.lookups e, s.locals.Agree l name) :
    ∃ c', (s.withLocals l).code e = .ok c' ∧ s.Carries l c c' :=
  codeInside_carries hs h agree

theorem code_renames (hs : s.registry.Installed s.builtins) {e : Expr} {c : Code}
    (h : s.code e = .ok c) : Renamed s.locals s.locals c.instructions c.instructions := by
  obtain ⟨c', hc', carries⟩ := code_carries (l := s.locals) hs h fun _ _ => rfl
  have same : c' = c := Except.ok.inj (hc'.symm.trans h)
  exact same ▸ carries.code

end Scope
end ClassAsm
