import ClassAsm.Proofs.Machine.Meaning
import ClassAsm.Method.Compiled

/-! A stack machine that runs segments. It goes through the instructions of a segment, and a branch
makes it go on at the start of the segment of that name. Code without branches and returns has an
effect of its own, which composes like the code. -/

namespace ClassAsm

variable {V E : Type}

/-- The operands with the top first, the locals by their slots, and the world. -/
structure Frame (V E : Type) where
  stack : List V
  slots : List V
  world : World V E

namespace Frame

def push (f : Frame V E) (v : V) : Frame V E := { f with stack := v :: f.stack }

def wrong {α : Type} (f : Frame V E) : Except (Halted V E) α := .error (.wrong, f.world)

/-- The frame with the operands that are left. -/
def withStack (f : Frame V E) (r : Except Halt (List V)) : Except (Halted V E) (Frame V E) :=
  (f.world.give r).map fun (st, _) => { f with stack := st }

end Frame

/-- What an instruction does that is no branch and no return. -/
def Meaning.effect (M : Meaning V E) (args : List V) (i : Instruction) (f : Frame V E) :
    Except (Halted V E) (Frame V E) :=
  match i with
  | .ldloc slot =>
    match f.slots[slot]? with
    | some v => .ok (f.push v)
    | none => f.wrong
  | .stloc slot =>
    match f.stack with
    | v :: st =>
      if slot < f.slots.length then .ok { f with stack := st, slots := f.slots.set slot v }
      else f.wrong
    | [] => f.wrong
  | .ldarg slot =>
    match args[slot]? with
    | some v => .ok (f.push v)
    | none => f.wrong
  | .ldsfld field => .ok (f.push (f.world.fields field))
  | .stsfld field =>
    match f.stack with
    | v :: st => .ok { f with stack := st, world := f.world.store field v }
    | [] => f.wrong
  | .call target pops pushes =>
    if pops ≤ f.stack.length then
      (M.invoke target (f.stack.take pops).reverse f.world).map fun (v, w) =>
        { f with stack := List.replicate pushes v ++ f.stack.drop pops, world := w }
    else f.wrong
  | i => f.withStack (M.compute i f.stack)

def Meaning.effects (M : Meaning V E) (args : List V) (code : List Instruction) (f : Frame V E) :
    Except (Halted V E) (Frame V E) :=
  code.foldlM (fun f i => M.effect args i f) f

/-- A machine in the middle of a segment, or at its end. -/
inductive Machine (V E : Type) where
  | inside (code : List Instruction) (f : Frame V E)
  | done (e : Ending V E)

namespace Machine

variable (M : Meaning V E) (args : List V) (segments : List Segment)

def halt (h : Halted V E) : Machine V E := .done (.halted h.1 h.2)

def jump (label : String) (f : Frame V E) : Machine V E :=
  match segments.find? (·.name == label) with
  | some s => .inside s.code f
  | none => .done (.halted .wrong f.world)

/-- Branches look at the top operand, and a return needs that the stack has nothing else. -/
def step (code : List Instruction) (f : Frame V E) : Machine V E :=
  let wrong := .done (.halted .wrong f.world)
  match code with
  | [] => wrong
  | .br label :: _ => jump segments label f
  | .brtrue label :: rest =>
    match f.stack with
    | v :: st =>
      let f := { f with stack := st }
      if M.isTrue v then jump segments label f else .inside rest f
    | [] => wrong
  | .brfalse label :: rest =>
    match f.stack with
    | v :: st =>
      let f := { f with stack := st }
      if M.isTrue v then .inside rest f else jump segments label f
    | [] => wrong
  | .ret true :: _ =>
    match f.stack with
    | [v] => .done (.returned (some v) f.world)
    | _ => wrong
  | .ret false :: _ =>
    match f.stack with
    | [] => .done (.returned none f.world)
    | _ => wrong
  | i :: rest =>
    match M.effect args i f with
    | .ok f => .inside rest f
    | .error h => halt h

def next : Machine V E → Machine V E
  | .inside code f => step M args segments code f
  | .done e => .done e

/-- The machine after a number of steps. -/
def after : Nat → Machine V E → Machine V E
  | 0, m => m
  | n + 1, m => after n (next M args segments m)

def world : Machine V E → World V E
  | .inside _ f => f.world
  | .done (.returned _ w) | .done (.halted _ w) => w

variable {M args segments}

theorem after_add (a b : Nat) (m : Machine V E) :
    after M args segments (a + b) m = after M args segments b (after M args segments a m) := by
  induction a generalizing m with
  | zero => simp [after]
  | succ a ih => rw [Nat.succ_add]; exact ih _

@[simp] theorem after_done (n : Nat) (e : Ending V E) :
    after M args segments n (.done e) = .done e := by
  induction n with
  | zero => rfl
  | succ n ih => exact ih

theorem after_eq_done_of_le {a b : Nat} {m : Machine V E} {e : Ending V E} (h : a ≤ b)
    (hd : after M args segments a m = .done e) : after M args segments b m = .done e := by
  obtain ⟨c, rfl⟩ := Nat.exists_eq_add_of_le h
  rw [after_add, hd, after_done]

/-! The trace only grows. -/

/-- The world after an instruction or an early end. -/
def worldOf : Except (Halted V E) (Frame V E) → World V E
  | .ok f => f.world
  | .error h => h.2

theorem trace_effect (i : Instruction) (f : Frame V E) :
    f.world.trace <+: (worldOf (M.effect args i f)).trace := by
  unfold Meaning.effect
  split
  case h_6 target pops pushes =>
    split
    · unfold Meaning.invoke
      cases h : (M.call target (f.stack.take pops).reverse f.world.fields).answer <;>
        simp only [h] <;> exact List.prefix_append _ _
    · exact List.prefix_refl _
  case h_2 =>
    split
    · split <;> exact List.prefix_refl _
    · exact List.prefix_refl _
  case h_4 => exact List.prefix_refl _
  case h_7 =>
    generalize M.compute _ f.stack = r
    cases r <;> exact List.prefix_refl _
  all_goals split <;> exact List.prefix_refl _

theorem trace_jump (label : String) (f : Frame V E) :
    (jump segments label f).world.trace = f.world.trace := by
  unfold jump
  split <;> rfl

theorem trace_next (m : Machine V E) :
    m.world.trace <+: (next M args segments m).world.trace := by
  cases m with
  | done e => exact List.prefix_refl _
  | inside code f =>
    change f.world.trace <+: (step M args segments code f).world.trace
    unfold step
    simp only
    split
    case h_1 => exact List.prefix_refl _
    case h_2 => rw [trace_jump]
    case h_3 =>
      split
      · split
        · rw [trace_jump]
        · exact List.prefix_refl _
      · exact List.prefix_refl _
    case h_4 =>
      split
      · split
        · exact List.prefix_refl _
        · rw [trace_jump]
      · exact List.prefix_refl _
    case h_5 | h_6 => split <;> exact List.prefix_refl _
    case h_7 i _ _ _ _ _ _ =>
      have grows := @trace_effect _ _ M args i f
      split <;> next h => rw [h] at grows; exact grows

theorem trace_after {a b : Nat} (h : a ≤ b) (m : Machine V E) :
    (after M args segments a m).world.trace <+: (after M args segments b m).world.trace := by
  obtain ⟨c, rfl⟩ := Nat.exists_eq_add_of_le h
  rw [after_add]
  generalize after M args segments a m = m
  induction c generalizing m with
  | zero => exact List.prefix_refl _
  | succ c ih => exact (trace_next m).trans (ih (by omega) _)

/-! Straight code. -/

theorem next_of_straight {i : Instruction} (h : i.isControl = false) (rest : List Instruction)
    (f : Frame V E) :
    next M args segments (.inside (i :: rest) f) =
      match M.effect args i f with
      | .ok f => .inside rest f
      | .error h => halt h := by
  cases i <;> first | rfl | cases h

theorem effects_cons (i : Instruction) (code : List Instruction) (f : Frame V E) :
    M.effects args (i :: code) f = M.effect args i f >>= M.effects args code := rfl

theorem effects_append (a b : List Instruction) (f : Frame V E) :
    M.effects args (a ++ b) f = M.effects args a f >>= M.effects args b := by
  simp only [Meaning.effects, List.foldlM_append]
  rfl

theorem effects_of_computes {code : List Instruction} (h : ∀ i ∈ code, i.computes = true)
    (f : Frame V E) : M.effects args code f = f.withStack (M.computeAll code f.stack) := by
  induction code generalizing f with
  | nil => rfl
  | cons i code ih =>
    have one : M.effect args i f = f.withStack (M.compute i f.stack) := by
      have hi := h i (by simp)
      cases i <;> first | rfl | cases hi
    rw [effects_cons, one, Meaning.computeAll_cons]
    cases M.compute i f.stack with
    | error why => rfl
    | ok st => exact ih (fun j hj => h j (List.mem_cons_of_mem _ hj)) { f with stack := st }

/-- The machine does what straight code does. -/
theorem after_of_straight {code : List Instruction} (h : Straight code) (rest : List Instruction)
    (f : Frame V E) :
    after M args segments code.length (.inside (code ++ rest) f) =
      match M.effects args code f with
      | .ok f => .inside rest f
      | .error h => halt h := by
  induction code generalizing f with
  | nil => rfl
  | cons i code ih =>
    rw [List.length_cons, after, List.cons_append, next_of_straight (h i (by simp)), effects_cons]
    cases M.effect args i f with
    | error e => exact after_done _ _
    | ok f' => exact ih (fun j hj => h j (List.mem_cons_of_mem _ hj)) f'

end Machine
end ClassAsm
