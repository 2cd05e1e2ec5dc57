import ClassAsm.Proofs.Result
import ClassAsm.Proofs.Registry.Installed

/-! What numbers and calls mean is left open. An interpretation says what the constants are, what
the arithmetic instructions give where they do not trap, which values count as true, and what calls
do to the static fields. Nothing is assumed of it. -/

namespace ClassAsm

/-- The static fields by their references, and what the calls so far have noted. -/
structure World (V E : Type) where
  fields : String → V
  trace : List E

/-- Why a run ends before its end: something traps, a call never returns, or the code has no
meaning. -/
inductive Halt where
  | trap
  | hang
  | wrong
deriving DecidableEq

inductive Answer (V : Type) where
  | value (v : V)
  | trap
  | hang

/-- What a call leaves behind, and whether it returns. -/
structure Reply (V E : Type) where
  fields : String → V
  events : List E
  answer : Answer V

/-- How a run ends, and the world then. -/
inductive Ending (V E : Type) where
  | returned (value : Option V) (w : World V E)
  | halted (why : Halt) (w : World V E)

/-- Instructions that only work on the operands. -/
def Instruction.computes : Instruction → Bool
  | ldcI4 _ | ldcI8 _ | ldcR4 _ | ldcR8 _ | pop | arith _ | neg | conv _ => true
  | ldstr _ | ldloc _ | stloc _ | ldloca _ | ldarg _ | ldsfld _ | ldfld _ | stsfld _ => false
  | stfld _ | ldind _ | stind _ | call .. | callBaseCtor => false
  | br _ | brtrue _ | brfalse _ | ret _ => false

theorem Numeric.template?_computes {n : Numeric} {op : Operation} {code : List Instruction}
    (h : n.template? op = some code) : ∀ i ∈ code, i.computes = true := by
  cases op <;> simp only [template?, Option.some.injEq, reduceCtorEq] at h <;> subst h <;>
    cases n <;> decide

structure Meaning (V E : Type) where
  int32 : Int32 → V
  int64 : Int64 → V
  single : Binary32 → V
  double : Binary64 → V
  isTrue : V → Bool
  arith : Arith → V → V → Option V
  neg : V → Option V
  conv : NumberKind → V → Option V
  /-- What a call of a method with these arguments does. -/
  call : String → List V → (String → V) → Reply V E

variable {V E : Type}

abbrev Halted (V E : Type) : Type := Halt × World V E

namespace World

def give {α : Type} (w : World V E) (r : Except Halt α) : Except (Halted V E) (α × World V E) :=
  match r with
  | .ok a => .ok (a, w)
  | .error why => .error (why, w)

def store (w : World V E) (field : String) (v : V) : World V E :=
  { w with fields := Function.update w.fields field v }

end World

namespace Meaning

variable (M : Meaning V E)

def zero : Numeric → V
  | .i32 => M.int32 0
  | .i64 => M.int64 0
  | .f32 => M.single ⟨0⟩
  | .f64 => M.double ⟨0⟩

/-- A call, which gives a value if it returns. -/
def invoke (target : String) (vs : List V) (w : World V E) :
    Except (Halted V E) (V × World V E) :=
  let r := M.call target vs w.fields
  let w : World V E := ⟨r.fields, w.trace ++ r.events⟩
  match r.answer with
  | .value v => .ok (v, w)
  | .trap => .error (.trap, w)
  | .hang => .error (.hang, w)

/-- A value that may be missing because of a trap. -/
def orTrap (v : Option V) : Except Halt V := v.elim (.error .trap) .ok

/-- What an instruction makes of the operands. -/
def compute : Instruction → List V → Except Halt (List V)
  | .ldcI4 v, st => .ok (M.int32 v :: st)
  | .ldcI8 v, st => .ok (M.int64 v :: st)
  | .ldcR4 v, st => .ok (M.single v :: st)
  | .ldcR8 v, st => .ok (M.double v :: st)
  | .pop, _ :: st => .ok st
  | .arith op, b :: a :: st => (orTrap (M.arith op a b)).map (· :: st)
  | .neg, a :: st => (orTrap (M.neg a)).map (· :: st)
  | .conv kind, a :: st => (orTrap (M.conv kind a)).map (· :: st)
  | _, _ => .error .wrong

@[simp] theorem compute_pop (a : V) (st : List V) : M.compute .pop (a :: st) = .ok st := rfl

@[simp] theorem compute_arith (op : Arith) (a b : V) (st : List V) :
    M.compute (.arith op) (b :: a :: st) = (orTrap (M.arith op a b)).map (· :: st) := rfl

@[simp] theorem compute_neg (a : V) (st : List V) :
    M.compute .neg (a :: st) = (orTrap (M.neg a)).map (· :: st) := rfl

@[simp] theorem compute_conv (kind : NumberKind) (a : V) (st : List V) :
    M.compute (.conv kind) (a :: st) = (orTrap (M.conv kind a)).map (· :: st) := rfl

def computeAll (code : List Instruction) (st : List V) : Except Halt (List V) :=
  code.foldlM (fun st i => M.compute i st) st

/-- The result of an operator of a numeric class, which is what its template leaves. -/
def operate (n : Option Numeric) (op : Operation) (operands : List V) : Except Halt V :=
  match n.bind (·.template? op) with
  | none => .error .wrong
  | some code =>
    match M.computeAll code operands.reverse with
    | .ok [v] => .ok v
    | .ok _ => .error .wrong
    | .error why => .error why

/-- The result of a binary operator. `!=` compares the result of `==` with zero. -/
def combine (n : Option Numeric) (op : BinaryOp) (a b : V) : Except Halt V := do
  let v ← M.operate n op.operation [a, b]
  if op = .ne then orTrap (M.arith .ceq v (M.int32 0)) else .ok v

theorem computeAll_cons (i : Instruction) (code : List Instruction) (st : List V) :
    M.computeAll (i :: code) st = M.compute i st >>= M.computeAll code := rfl

theorem computeAll_one (i : Instruction) (st : List V) : M.computeAll [i] st = M.compute i st := by
  rw [computeAll_cons]
  cases M.compute i st <;> rfl

theorem computeAll_append (a b : List Instruction) (st : List V) :
    M.computeAll (a ++ b) st = M.computeAll a st >>= M.computeAll b := by
  simp only [computeAll, List.foldlM_append]
  rfl

theorem compute_frame {i : Instruction} {a : List V} (h : i.effect.pops ≤ a.length)
    (st : List V) : M.compute i (a ++ st) = (M.compute i a).map (· ++ st) := by
  cases i with
  | pop =>
    match a, h with
    | _ :: _, _ => rfl
  | arith op =>
    match a, h with
    | y :: x :: _, _ => cases hv : M.arith op x y <;> simp [hv, orTrap, Except.map]
  | neg =>
    match a, h with
    | x :: _, _ => cases hv : M.neg x <;> simp [hv, orTrap, Except.map]
  | conv kind =>
    match a, h with
    | x :: _, _ => cases hv : M.conv kind x <;> simp [hv, orTrap, Except.map]
  | _ => rfl

theorem length_compute {i : Instruction} {a b : List V} (h : M.compute i a = .ok b) :
    b.length = a.length - i.effect.pops + i.effect.pushes := by
  cases i with
  | ldcI4 | ldcI8 | ldcR4 | ldcR8 =>
    cases h
    rfl
  | pop =>
    match a, h with
    | _ :: _, h =>
      cases h
      rfl
  | arith op =>
    match a, h with
    | _ :: _ :: _, h =>
      obtain ⟨v, -, rfl⟩ := map_eq_ok.1 h
      rfl
  | neg | conv =>
    match a, h with
    | _ :: _, h =>
      obtain ⟨v, -, rfl⟩ := map_eq_ok.1 h
      rfl
  | _ => cases h

theorem computeAll_frame {code : List Instruction} {a : List V} {hs : List Nat}
    (h : Instruction.heights a.length code = some hs) (st : List V) :
    M.computeAll code (a ++ st) = (M.computeAll code a).map (· ++ st) ∧
      ∀ b, M.computeAll code a = .ok b → b.length = hs.getLastD a.length := by
  induction code generalizing a hs with
  | nil =>
    cases h
    exact ⟨rfl, fun b hb => by cases hb; rfl⟩
  | cons i code ih =>
    rw [Instruction.heights] at h
    split at h
    · next hp =>
      obtain ⟨hs', h', rfl⟩ := Option.map_eq_some_iff.1 h
      rw [computeAll_cons, computeAll_cons, compute_frame M hp]
      cases hi : M.compute i a with
      | error why =>
        refine ⟨rfl, ?_⟩
        intro _ hb
        cases hb
      | ok b =>
        rw [← length_compute M hi] at h'
        rw [List.getLastD_cons, ← length_compute M hi]
        exact ih h'
    · cases h

theorem computeAll_template {n : Numeric} {op : Operation} {code : List Instruction}
    (h : n.template? op = some code) (operands : List V) (hl : operands.length = op.arity)
    (st : List V) :
    M.computeAll code (operands.reverse ++ st) =
      (M.operate (some n) op operands).map (· :: st) := by
  obtain ⟨hs, hh, hlast⟩ := Numeric.template?_moves h 0
  rw [Nat.zero_add, ← hl, ← List.length_reverse] at hh hlast
  obtain ⟨frame, single⟩ := M.computeAll_frame hh st
  simp only [frame, operate, Option.bind_some, h]
  cases hr : M.computeAll code operands.reverse with
  | error why => rfl
  | ok b =>
    have := single b hr
    rw [hlast] at this
    match b, this with
    | [v], _ => rfl

/-! With the right number of operands nothing goes wrong but by a trap. -/

theorem orTrap_ne_wrong (v : Option V) : orTrap v ≠ .error .wrong := by
  cases v <;> simp [orTrap]

theorem compute_ne_wrong {i : Instruction} (h : i.computes = true) {st : List V}
    (hp : i.effect.pops ≤ st.length) : M.compute i st ≠ .error .wrong := by
  have lifted {v : Option V} {st : List V} :
      (orTrap v).map (· :: st) ≠ .error .wrong := by
    cases v <;> simp [orTrap, Except.map]
  cases i with
  | pop =>
    match st, hp with
    | _ :: _, _ => simp
  | arith op =>
    match st, hp with
    | b :: a :: _, _ => exact lifted
  | neg =>
    match st, hp with
    | _ :: _, _ => exact lifted
  | conv kind =>
    match st, hp with
    | _ :: _, _ => exact lifted
  | ldcI4 | ldcI8 | ldcR4 | ldcR8 => nofun
  | _ => cases h

theorem computeAll_ne_wrong {code : List Instruction} (h : ∀ i ∈ code, i.computes = true)
    {st : List V} {hs : List Nat} (hh : Instruction.heights st.length code = some hs) :
    M.computeAll code st ≠ .error .wrong := by
  induction code generalizing st hs with
  | nil => simp [computeAll, pure, Except.pure]
  | cons i code ih =>
    rw [Instruction.heights] at hh
    split at hh
    · next hp =>
      obtain ⟨hs', h', rfl⟩ := Option.map_eq_some_iff.1 hh
      rw [computeAll_cons]
      cases hi : M.compute i st with
      | error why =>
        intro he
        cases he
        exact compute_ne_wrong M (h i (by simp)) hp hi
      | ok st' =>
        rw [← length_compute M hi] at h'
        exact ih (fun j hj => h j (List.mem_cons_of_mem _ hj)) h'
    · cases hh

theorem operate_ne_wrong {n : Numeric} {op : Operation} {code : List Instruction}
    (h : n.template? op = some code) (operands : List V) (hl : operands.length = op.arity) :
    M.operate (some n) op operands ≠ .error .wrong := by
  obtain ⟨hs, hh, -⟩ := Numeric.template?_moves h 0
  rw [Nat.zero_add, ← hl, ← List.length_reverse] at hh
  have whole := M.computeAll_template h operands hl []
  rw [List.append_nil] at whole
  have right := M.computeAll_ne_wrong (Numeric.template?_computes h) hh
  intro hw
  rw [whole, hw] at right
  exact right rfl

theorem arity_binary (op : BinaryOp) : op.operation.arity = 2 := by cases op <;> rfl

theorem combine_ne_wrong {n : Numeric} {op : BinaryOp} {code : List Instruction}
    (h : n.template? op.operation = some code) (a b : V) :
    M.combine (some n) op a b ≠ .error .wrong := by
  apply bind_ne_error (M.operate_ne_wrong h [a, b] (arity_binary op).symm)
  intro v
  split
  · exact orTrap_ne_wrong _
  · simp

theorem computeAll_combine {n : Numeric} {op : BinaryOp} {code : List Instruction}
    (h : n.template? op.operation = some code) (a b : V) (st : List V) :
    M.computeAll (code ++ if op = .ne then [.ldcI4 0, .arith .ceq] else []) (b :: a :: st) =
      (M.combine (some n) op a b).map (· :: st) := by
  have result := M.computeAll_template h [a, b] (arity_binary op).symm st
  rw [computeAll_append]
  apply (congrArg (· >>= _) result).trans
  rw [map_bind, combine, bind_map]
  congr 1
  funext v
  split
  · exact M.computeAll_one _ _
  · rfl

end Meaning
end ClassAsm
