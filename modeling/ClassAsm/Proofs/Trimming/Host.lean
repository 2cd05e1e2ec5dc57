import ClassAsm.Proofs.Code.Height
import ClassAsm.Proofs.Flow.Graph

/-! A machine for the segments of any method. A host says what an instruction makes of its operands
and of the world. The world is all that a method can see or change: its arguments and its locals,
fields, objects, and the calls so far. A local is known to the host by its name and its type, so it
does not matter which slot it has. -/

namespace ClassAsm

namespace Instruction

def isQuiet : Instruction → Bool
  | stloc _ | stsfld _ | stfld _ | stind _ | call .. | callBaseCtor => false
  | br _ | brtrue _ | brfalse _ | ret _ => false
  | ldcI4 _ | ldcI8 _ | ldcR4 _ | ldcR8 _ | ldstr _ | ldloc _ | ldloca _ | ldarg _ => true
  | ldsfld _ | ldfld _ | ldind _ | pop | arith _ | neg | conv _ => true

def slot? : Instruction → Option Nat
  | ldloc slot | stloc slot | ldloca slot => some slot
  | _ => none

theorem isControl_of_isQuiet {i : Instruction} (h : i.isQuiet = true) : i.isControl = false := by
  cases i <;> first | rfl | cases h

end Instruction

/-- An instruction with a local in place of a slot. -/
inductive Deed where
  | load (l : String × TypeRef)
  | store (l : String × TypeRef)
  | address (l : String × TypeRef)
  | other (i : Instruction)

def Instruction.deed? (locals : List (String × TypeRef)) : Instruction → Option Deed
  | ldloc slot => (locals[slot]?).map .load
  | stloc slot => (locals[slot]?).map .store
  | ldloca slot => (locals[slot]?).map .address
  | i => some (.other i)

def Deed.isQuiet : Deed → Bool
  | load _ | address _ => true
  | store _ => false
  | other i => i.isQuiet

/-- The world after an instruction, which may have failed. -/
def worldAfter {V W E : Type} : Except (E × W) (V × W) → W
  | .ok (_, w) | .error (_, w) => w

/-- What instructions mean: the result, which goes onto the stack as often as the instruction
pushes, or an early end. The topmost operand comes first. -/
structure Host (V W E : Type) where
  run : Deed → List V → W → Except (E × W) (V × W)
  isTrue : V → Bool
  /-- A quiet instruction leaves the world as it is, even if it fails. -/
  calm : ∀ deed, deed.isQuiet = true → ∀ vs w, worldAfter (run deed vs w) = w

namespace Host

variable {V W E : Type}

/-- How a run ends, and the world then. -/
inductive Ending (V W E : Type) where
  | returned (value : Option V) (w : W)
  | failed (why : E) (w : W)
  /-- The code makes no sense here. -/
  | wrong (w : W)

def Ending.world : Ending V W E → W
  | returned _ w | failed _ w | wrong w => w

/-- A machine in the middle of a segment, or at its end. -/
inductive State (V W E : Type) where
  | inside (code : List Instruction) (stack : List V) (w : W)
  | done (e : Ending V W E)

def State.world : State V W E → W
  | inside _ _ w => w
  | done e => e.world

variable (h : Host V W E) (m : Method)

/-- An instruction that is no branch and no return. -/
def perform (i : Instruction) (stack : List V) (w : W) : Except (Ending V W E) (List V × W) :=
  match i.deed? m.locals with
  | none => .error (.wrong w)
  | some deed =>
    if i.effect.pops ≤ stack.length then
      match h.run deed (stack.take i.effect.pops) w with
      | .ok (v, w) => .ok (List.replicate i.effect.pushes v ++ stack.drop i.effect.pops, w)
      | .error (why, w) => .error (.failed why w)
    else .error (.wrong w)

/-- Goes on in the segment of a name. -/
def jump (label : String) (stack : List V) (w : W) : State V W E :=
  match m.segments.find? (·.name == label) with
  | some s => .inside s.code stack w
  | none => .done (.wrong w)

/-- Branches look at the topmost operand, and a return needs that the stack has nothing else. -/
def step (i : Instruction) (rest : List Instruction) (stack : List V) (w : W) : State V W E :=
  match i with
  | .br label => jump m label stack w
  | .brtrue label =>
    match stack with
    | v :: stack => if h.isTrue v then jump m label stack w else .inside rest stack w
    | [] => .done (.wrong w)
  | .brfalse label =>
    match stack with
    | v :: stack => if h.isTrue v then .inside rest stack w else jump m label stack w
    | [] => .done (.wrong w)
  | .ret hasValue =>
    match hasValue, stack with
    | true, [v] => .done (.returned (some v) w)
    | false, [] => .done (.returned none w)
    | _, _ => .done (.wrong w)
  | i =>
    match h.perform m i stack w with
    | .ok (stack, w) => .inside rest stack w
    | .error e => .done e

def next : State V W E → State V W E
  | .inside [] _ w => .done (.wrong w)
  | .inside (i :: rest) stack w => h.step m i rest stack w
  | .done e => .done e

def after : Nat → State V W E → State V W E
  | 0, s => s
  | n + 1, s => after n (h.next m s)

/-- A method starts in its first segment, without operands. -/
def start (w : W) : State V W E := jump m Draft.startName [] w

def Ends (s : State V W E) (e : Ending V W E) : Prop := ∃ n, h.after m n s = .done e

def Reaches (s : State V W E) (w : W) : Prop := ∃ n, (h.after m n s).world = w

/-- A quiet instruction ends the run. -/
def Traps (s : State V W E) (w : W) : Prop :=
  ∃ n i rest stack why, h.after m n s = .inside (i :: rest) stack w ∧ i.isQuiet = true ∧
    h.next m (.inside (i :: rest) stack w) = .done (.failed why w)

variable {h m} {s : State V W E} {e : Ending V W E} {w : W}

@[simp] theorem after_zero (s : State V W E) : h.after m 0 s = s := rfl

theorem after_succ (n : Nat) (s : State V W E) : h.after m (n + 1) s = h.after m n (h.next m s) :=
  rfl

theorem after_add (a b : Nat) (s : State V W E) :
    h.after m (a + b) s = h.after m b (h.after m a s) := by
  induction a generalizing s with
  | zero => rw [Nat.zero_add, after_zero]
  | succ a ih => rw [Nat.succ_add, after_succ, after_succ, ih]

@[simp] theorem after_done (n : Nat) (e : Ending V W E) : h.after m n (.done e) = .done e := by
  induction n with
  | zero => rfl
  | succ n ih => exact ih

/-! What comes after some steps comes. -/

theorem Ends.after {n : Nat} (he : h.Ends m (h.after m n s) e) : h.Ends m s e := by
  obtain ⟨k, hk⟩ := he
  exact ⟨n + k, by rw [after_add, hk]⟩

theorem Reaches.after {n : Nat} (hw : h.Reaches m (h.after m n s) w) : h.Reaches m s w := by
  obtain ⟨k, hk⟩ := hw
  exact ⟨n + k, by rw [after_add, hk]⟩

theorem Traps.after {n : Nat} (ht : h.Traps m (h.after m n s) w) : h.Traps m s w := by
  obtain ⟨k, i, rest, stack, why, hk, quiet, fails⟩ := ht
  exact ⟨n + k, i, rest, stack, why, by rw [after_add, hk], quiet, fails⟩

theorem Reaches.here (s : State V W E) : h.Reaches m s s.world := ⟨0, rfl⟩

/-- A trap is an end of the run. -/
theorem Traps.ends (ht : h.Traps m s w) : ∃ why, h.Ends m s (.failed why w) := by
  obtain ⟨n, i, rest, stack, why, hn, -, fails⟩ := ht
  exact ⟨why, n + 1, by rw [after_add, hn]; exact fails⟩

/-! Quiet code. -/

theorem step_of_not_isControl {i : Instruction} (hi : i.isControl = false)
    (rest : List Instruction) (stack : List V) (w : W) :
    h.step m i rest stack w =
      match h.perform m i stack w with
      | .ok (stack, w) => .inside rest stack w
      | .error e => .done e := by
  cases i <;> first | rfl | cases hi

theorem isQuiet_of_deed? {i : Instruction} (hi : i.isQuiet = true) {deed : Deed}
    {locals : List (String × TypeRef)} (hd : i.deed? locals = some deed) : deed.isQuiet = true := by
  cases i with
  | ldloc | ldloca =>
    obtain ⟨_, -, rfl⟩ := Option.map_eq_some_iff.1 hd
    rfl
  | stloc => cases hi
  | _ =>
    cases hd
    exact hi

theorem perform_of_isQuiet {i : Instruction} (hi : i.isQuiet = true)
    (hd : i.deed? m.locals ≠ none) {a : List V} (hp : i.effect.pops ≤ a.length) (st : List V)
    (w : W) :
    (∃ b, h.perform m i (a ++ st) w = .ok (b ++ st, w) ∧
      b.length = a.length - i.effect.pops + i.effect.pushes) ∨
      ∃ why, h.perform m i (a ++ st) w = .error (.failed why w) := by
  obtain ⟨deed, hd⟩ := Option.ne_none_iff_exists'.1 hd
  have calm := h.calm deed (isQuiet_of_deed? hi hd) (a.take i.effect.pops) w
  have enough : i.effect.pops ≤ (a ++ st).length := by
    rw [List.length_append]
    omega
  simp only [perform, hd, if_pos enough, List.take_append_of_le_length hp,
    List.drop_append_of_le_length hp]
  cases hr : h.run deed (a.take i.effect.pops) w with
  | error e =>
    rw [hr] at calm
    obtain ⟨why, w'⟩ := e
    obtain rfl : w' = w := calm
    exact .inr ⟨why, rfl⟩
  | ok r =>
    rw [hr] at calm
    obtain ⟨v, w'⟩ := r
    obtain rfl : w' = w := calm
    refine .inl ⟨List.replicate i.effect.pushes v ++ a.drop i.effect.pops, ?_, ?_⟩
    · simp only [List.append_assoc]
    · rw [List.length_append, List.length_replicate, List.length_drop]
      omega

/-- Quiet code whose locals are there. -/
structure Settled (locals : List (String × TypeRef)) (code : List Instruction) : Prop where
  quiet : ∀ i ∈ code, i.isQuiet = true
  known : ∀ i ∈ code, i.deed? locals ≠ none

/-- Quiet code in front of other code comes to the other code or to a trap, and the world is the
same all the time. -/
theorem after_settled {code : List Instruction} (hc : Settled m.locals code) {a : List V}
    {hs : List Nat} (hh : Instruction.heights a.length code = some hs) (rest : List Instruction)
    (st : List V) (w : W) :
    (∃ b, h.after m code.length (.inside (code ++ rest) (a ++ st) w) = .inside rest (b ++ st) w ∧
        b.length = hs.getLastD a.length ∧
        ∀ n ≤ code.length, (h.after m n (.inside (code ++ rest) (a ++ st) w)).world = w) ∨
      h.Traps m (.inside (code ++ rest) (a ++ st) w) w ∧
        ∀ n, (h.after m n (.inside (code ++ rest) (a ++ st) w)).world = w := by
  induction code generalizing a hs with
  | nil =>
    cases hh
    refine .inl ⟨a, rfl, rfl, fun n hn => ?_⟩
    obtain rfl := Nat.le_zero.1 hn
    rfl
  | cons i code ih =>
    have quiet := hc.quiet i (by simp)
    rw [Instruction.heights] at hh
    split at hh
    case isFalse => cases hh
    next hp =>
    obtain ⟨hs', h', rfl⟩ := Option.map_eq_some_iff.1 hh
    have first : h.next m (.inside (i :: code ++ rest) (a ++ st) w) =
        match h.perform m i (a ++ st) w with
        | .ok (stack, w) => .inside (code ++ rest) stack w
        | .error e => .done e :=
      step_of_not_isControl (Instruction.isControl_of_isQuiet quiet) _ _ _
    rcases perform_of_isQuiet quiet (hc.known i (by simp)) hp st w with
      ⟨b, ok, hb⟩ | ⟨why, fails⟩
    · rw [ok] at first
      rw [← hb] at h'
      have others : Settled m.locals code :=
        ⟨fun j hj => hc.quiet j (by simp [hj]), fun j hj => hc.known j (by simp [hj])⟩
      rcases ih others h' with ⟨b', comes, hl, same⟩ | ⟨traps, same⟩
      · refine .inl ⟨b', ?_, ?_, ?_⟩
        · rw [List.length_cons, after_succ, first, comes]
        · rw [List.getLastD_cons, ← hb, hl]
        · intro n hn
          cases n with
          | zero => rfl
          | succ n =>
            rw [after_succ, first]
            exact same n (by simpa using hn)
      · refine .inr ⟨?_, ?_⟩
        · apply Traps.after (n := 1)
          rw [after_succ, first]
          exact traps
        · intro n
          cases n with
          | zero => rfl
          | succ n =>
            rw [after_succ, first]
            exact same n
    · rw [fails] at first
      refine .inr ⟨⟨0, i, code ++ rest, a ++ st, why, rfl, quiet, first⟩, ?_⟩
      intro n
      cases n with
      | zero => rfl
      | succ n =>
        rw [after_succ, first, after_done]
        rfl

end Host
end ClassAsm
