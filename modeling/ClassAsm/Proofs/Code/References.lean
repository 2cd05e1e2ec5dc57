import ClassAsm.Proofs.Code.Operands
import ClassAsm.Proofs.Registry.Targets

/-! What the code of expressions refers to. A call names a declared method that still has to be
compiled, with the operands that its signature asks for, and an access names a field of the class
that the code stands in. -/

namespace ClassAsm

/-- The operands of a call: the arguments, and the receiver if there is one. -/
def Signature.operands (s : Signature) : Nat :=
  s.params.length + if s.takesReceiver then 1 else 0

namespace Registry

/-- The place of a field of the class, static or not. -/
def HasField (r : Registry) (owner : ClassId) (isStatic : Bool) (target : String) : Prop :=
  ∃ c f, r.class? owner = some c ∧ f ∈ c.fields ∧ f.isStatic = isStatic ∧
    target = r.fieldTarget owner f

def HasMethod (r : Registry) (void : ClassId) (target : String) (pops pushes : Nat) : Prop :=
  ∃ id c m, r.class? id = some c ∧ m ∈ c.methods ∧ m.body = .pending ∧
    target = r.callTarget m.sig ∧ pops = m.sig.operands ∧
    pushes = if m.sig.returnType.cls = void then 0 else 1

/-- What the instruction refers to is declared. -/
def Knows (r : Registry) (void owner : ClassId) : Instruction → Prop
  | .call target pops pushes => r.HasMethod void target pops pushes
  | .ldsfld target | .stsfld target => r.HasField owner true target
  | .ldfld target | .stfld target => r.HasField owner false target
  | _ => True

end Registry

/-- All instructions refer to what is declared. -/
def AllKnown (r : Registry) (void owner : ClassId) (code : List Instruction) : Prop :=
  ∀ i ∈ code, r.Knows void owner i

namespace AllKnown

variable {r : Registry} {void owner : ClassId} {a b : List Instruction}

@[simp] theorem nil : AllKnown r void owner [] := nofun

@[simp] theorem cons_iff {i : Instruction} :
    AllKnown r void owner (i :: a) ↔ r.Knows void owner i ∧ AllKnown r void owner a :=
  List.forall_mem_cons

@[simp] theorem append_iff :
    AllKnown r void owner (a ++ b) ↔ AllKnown r void owner a ∧ AllKnown r void owner b :=
  List.forall_mem_append

end AllKnown

theorem Numeric.template?_known {n : Numeric} {op : Operation} {code : List Instruction}
    (h : n.template? op = some code) (r : Registry) (void owner : ClassId) :
    AllKnown r void owner code := by
  cases op <;> simp only [template?, Option.some.injEq, reduceCtorEq] at h <;> subst h <;>
    cases n <;> simp [Registry.Knows, zero]

namespace Scope

/-- The declarations around an expression: operators of declared classes have no receiver, and the
methods of the class at hand are still to be compiled. -/
structure Sees (s : Scope) : Prop where
  installed : s.registry.Installed s.builtins
  operators : ∀ {id : ClassId} {op : Operation} {m : Method}, s.builtins.numeric? id = none →
    (s.registry.class? id).bind (·.operator? op) = some m → m.sig.isOperator = true
  own : ∀ c, s.registry.class? s.owner = some c → ∀ m ∈ c.methods, m.body = .pending

variable {s : Scope}

/-- Code in this place that refers to what is declared. -/
abbrev Known (s : Scope) (code : List Instruction) : Prop :=
  AllKnown s.registry s.builtins.void s.owner code

theorem pushes_eq (t : TypeRef) : s.pushes t = if t.cls = s.builtins.void then 0 else 1 := by
  simp [pushes, isVoid]

theorem useOperator_known (hs : s.Sees) {t : TypeRef} {op : Operation} {span : Span} {m : Method}
    (h : s.operator t op span = .ok m) : s.Known (s.useOperator m) := by
  obtain ⟨hm, -⟩ := operator_eq_ok.1 h
  cases hn : s.builtins.numeric? t.cls with
  | some n =>
    obtain ⟨key, code, -, ht, rfl⟩ := hs.installed.numeric hn hm
    exact Numeric.template?_known ht _ _ _
  | none =>
    have pending := hs.installed.pending hn hm
    have receiver : m.sig.takesReceiver = false := by
      simp [Signature.takesReceiver, hs.operators hn hm]
    obtain ⟨c, hc, ho⟩ := Option.bind_eq_some_iff.1 hm
    rw [useOperator, pending]
    simp only [AllKnown.cons_iff, AllKnown.nil, and_true]
    exact ⟨_, c, m, hc, Class.mem_of_operator? ho, pending, rfl,
      by simp [Signature.operands, receiver], pushes_eq _⟩

theorem exists_field {name : String} {f : Field} (h : s.field? name = some f) :
    ∃ c, s.registry.class? s.owner = some c ∧ f ∈ c.fields := by
  obtain ⟨c, hc, hf⟩ := Option.bind_eq_some_iff.1 h
  exact ⟨c, hc, (Class.mem_of_field? hf).1⟩

theorem loadLocal_known (slot : Nat) (type : TypeRef) :
    s.Known (s.loadLocal slot type).instructions := by
  unfold loadLocal
  split <;> simp [Registry.Knows]

theorem addressArgument_known {callee param : String} {type : TypeRef} {arg : Expr}
    {code : List Instruction} (h : s.addressArgument callee param type arg = .ok code) :
    s.Known code := by
  unfold addressArgument at h
  simp only at h
  split at h
  · cases h
  · split at h
    · cases h
      split <;> simp [Registry.Knows]
    · cases h

/-- What stands in for fields refers to what is declared. -/
def StandsKnown (s : Scope) (standIn : StandIn) : Prop :=
  ∀ f code, standIn f = some (.ok code) → s.Known code

variable {standIn : StandIn}

theorem nameCode_known (hst : s.StandsKnown standIn) {name : String} {span : Span} {c : Code}
    (h : s.nameCode standIn name span = .ok c) : s.Known c.instructions := by
  unfold nameCode at h
  split at h
  · cases h
    exact loadLocal_known _ _
  simp only at h
  split at h
  · cases h
  next f hf =>
  obtain ⟨c', hc', hm⟩ := exists_field hf
  split at h
  · next hstatic =>
    cases h
    simpa [Registry.Knows] using ⟨c', f, hc', hm, hstatic, rfl⟩
  split at h
  · next hinstance _ =>
    cases h
    simpa [Registry.Knows] using ⟨c', f, hc', hm, by simpa using hinstance, rfl⟩
  split at h
  · cases h
  · next code hc =>
    obtain ⟨_, rfl, rfl⟩ := map_eq_ok.1 h
    exact hst _ _ hc

theorem callee_eq_ok {name : String} {span : Span} {sig : Signature}
    (h : s.callee name span = .ok sig) :
    ∃ c m, s.registry.class? s.owner = some c ∧ m ∈ c.methods ∧ m.sig = sig := by
  unfold callee at h
  split at h
  · next m hm =>
    split at h <;> cases h
    obtain ⟨c, hc, hm⟩ := Option.bind_eq_some_iff.1 hm
    exact ⟨c, m, hc, (Class.mem_of_method? hm).1, rfl⟩
  · cases h

theorem receiver_of_callee {name : String} {span : Span} {sig : Signature}
    (h : s.callee name span = .ok sig) (takes : sig.takesReceiver = true) :
    s.hasReceiver = true := by
  unfold callee at h
  split at h
  · split at h
    · cases h
    next guarded =>
    cases h
    simpa [takes] using guarded
  · cases h

mutual

theorem codeWith_known (hs : s.Sees) (hst : s.StandsKnown standIn) :
    ∀ {e : Expr} {c : Code}, s.codeWith standIn e = .ok c → s.Known c.instructions
  | .int v span, c, h => by
    simp only [codeWith, Except.ok.injEq] at h
    subst h
    unfold intCode
    split <;> simp [Registry.Knows]
  | .float v span, c, h => by
    simp only [codeWith, Except.ok.injEq] at h
    subst h
    unfold floatCode
    split <;> simp [Registry.Knows]
  | .str v span, c, h => by
    simp only [codeWith, Except.ok.injEq] at h
    subst h
    simp [Registry.Knows]
  | .ident name span, c, h => by
    rw [codeWith] at h
    exact nameCode_known hst h
  | .binary op left right span, c, h => by
    simp only [codeWith, bind_eq_ok, needValue_eq_ok] at h
    obtain ⟨l, hl, _, ⟨-, rfl⟩, m, hm, r, hr, _, ⟨-, rfl⟩, h⟩ := h
    split at h
    · cases h
    cases h
    have negation : s.Known (if op = .ne then [.ldcI4 0, .arith .ceq] else []) := by
      split <;> simp [Registry.Knows]
    simp [codeWith_known hs hst hl, codeWith_known hs hst hr, useOperator_known hs hm, negation]
  | .unary op operand span, c, h => by
    simp only [codeWith, bind_eq_ok, needValue_eq_ok] at h
    obtain ⟨o, ho, _, ⟨-, rfl⟩, h⟩ := h
    have hoperand := codeWith_known hs hst ho
    cases op with
    | not =>
      simp only [bind_eq_ok] at h
      obtain ⟨m, hm, h⟩ := h
      cases h
      simp [hoperand, useOperator_known hs hm]
    | neg =>
      simp only [if_true] at h
      split at h
      · cases h
        simp [hoperand, Registry.Knows]
      · cases h
    | pos =>
      simp only [reduceCtorEq, if_false, List.append_nil] at h
      split at h
      · cases h
        exact hoperand
      · cases h
  | .call name nameSpan args span, c, h => by
    simp only [codeWith, bind_eq_ok] at h
    obtain ⟨sig, hsig, h⟩ := h
    split at h
    · cases h
    simp only [bind_eq_ok] at h
    obtain ⟨given, hg, h⟩ := h
    cases h
    obtain ⟨c, m, hc, hm, rfl⟩ := callee_eq_ok hsig
    have receiver : s.Known (if m.sig.takesReceiver then [.ldarg 0] else []) := by
      split <;> simp [Registry.Knows]
    have target : s.registry.HasMethod s.builtins.void (s.registry.callTarget m.sig)
        ((if m.sig.takesReceiver then [Instruction.ldarg 0] else []).length +
          m.sig.params.length) (s.pushes m.sig.returnType) := by
      refine ⟨s.owner, c, m, hc, hm, hs.own c hc m hm, rfl, ?_, pushes_eq _⟩
      rw [Signature.operands]
      split <;> simp [Nat.add_comm]
    simp only [AllKnown.append_iff, AllKnown.cons_iff, AllKnown.nil, and_true]
    exact ⟨⟨receiver, argsWith_known hs hst hg⟩, target⟩
  | .cast operand target targetSpan span, c, h => by
    simp only [codeWith, bind_eq_ok, needValue_eq_ok] at h
    obtain ⟨o, ho, _, ⟨-, rfl⟩, type, -, h⟩ := h
    split at h
    · cases h
      simp [codeWith_known hs hst ho, Registry.Knows]
    · cases h

theorem argsWith_known (hs : s.Sees) (hst : s.StandsKnown standIn) {name : String} :
    ∀ {args : List Expr} {params : List (String × TypeRef)} {code : List Instruction},
      s.argsWith standIn name args params = .ok code → s.Known code
  | arg :: args, (param, type) :: params, code, h => by
    simp only [argsWith_cons, bind_eq_ok, Except.ok.injEq] at h
    obtain ⟨here, hh, rest, hr, rfl⟩ := h
    have hone : s.Known here := by
      obtain ⟨-, hh⟩ | ⟨-, c, hc, -, -, rfl⟩ := argCode_eq_ok.1 hh
      · exact addressArgument_known hh
      · exact codeWith_known hs hst hc
    simp [hone, argsWith_known hs hst hr]
  | [], _, code, h | _ :: _, [], code, h => by
    simp only [argsWith, Except.ok.injEq] at h
    subst h
    simp

end

theorem codeInside_known (hs : s.Sees) {n : Nat} {inlining : List String} {e : Expr} {c : Code}
    (h : s.codeInside n inlining e = .ok c) : s.Known c.instructions := by
  induction n generalizing inlining e c with
  | zero => exact codeWith_known hs (by simp [StandsKnown]) h
  | succ n ih =>
    rw [codeInside_succ] at h
    refine codeWith_known hs (fun f code hf => ?_) h
    obtain ⟨-, default, c, -, hc, -, -, rfl⟩ := standsInside_eq_ok.1 hf
    exact ih hc

theorem code_known (hs : s.Sees) {e : Expr} {c : Code} (h : s.code e = .ok c) :
    s.Known c.instructions := codeInside_known hs h

theorem valueCode_known (hs : s.Sees) {e : Expr} {c : Code} (h : s.valueCode e = .ok c) :
    s.Known c.instructions := code_known hs (valueCode_eq_ok.1 h).1

end ClassAsm.Scope
