import Mathlib.Tactic
import ClassAsm.Method.Code

/-! Stack heights. Replaying the effects of instructions gives the height after each of them, or
nothing if one of them lacks an operand. `Moves` says what a piece of code does to the top of any
stack, and composes like the code. -/

namespace ClassAsm

namespace Instruction

def isControl : Instruction → Bool
  | br _ | brtrue _ | brfalse _ | ret _ => true
  | _ => false

/-- The height after each instruction, starting from a given height. -/
def heights : Nat → List Instruction → Option (List Nat)
  | _, [] => some []
  | h, i :: code =>
    if i.effect.pops ≤ h then
      let next := h - i.effect.pops + i.effect.pushes
      (heights next code).map (next :: ·)
    else none

theorem isControl_of_isTerminator {i : Instruction} (h : i.isTerminator = true) :
    i.isControl = true := by
  cases i <;> first | rfl | cases h

theorem isControl_of_target? {i : Instruction} {l : String} (h : i.target? = some l) :
    i.isControl = true := by
  cases i <;> first | rfl | cases h

theorem heights_append (h : Nat) (a b : List Instruction) :
    heights h (a ++ b) =
      (heights h a).bind fun hs => (heights (hs.getLastD h) b).map (hs ++ ·) := by
  induction a generalizing h with
  | nil => simp [heights]
  | cons i a ih =>
    rw [List.cons_append, heights, heights]
    split
    · simp only [ih, Option.map_bind, Option.bind_map]
      congr 1
      funext hs
      simp only [Function.comp_def, List.getLastD_cons, Option.map_map, List.cons_append]
    · rfl

theorem length_heights {h : Nat} {a : List Instruction} {hs : List Nat}
    (e : heights h a = some hs) : hs.length = a.length := by
  induction a generalizing h hs with
  | nil =>
    cases e
    rfl
  | cons i a ih =>
    rw [heights] at e
    split at e
    · obtain ⟨hs', e', rfl⟩ := Option.map_eq_some_iff.1 e
      simp [ih e']
    · cases e

end Instruction

open Instruction

/-- Code without branches and returns. -/
def Straight (code : List Instruction) : Prop := ∀ i ∈ code, i.isControl = false

theorem Straight.append {a b : List Instruction} (ha : Straight a) (hb : Straight b) :
    Straight (a ++ b) := by
  intro i hi
  rcases List.mem_append.1 hi with h | h
  · exact ha i h
  · exact hb i h

theorem Straight.nil : Straight [] := nofun

theorem Straight.one {i : Instruction} (h : i.isControl = false) : Straight [i] := by
  simpa [Straight] using h

/-- The code takes `p` operands off any stack that has them and puts `q` in their place. -/
def Moves (code : List Instruction) (p q : Nat) : Prop :=
  ∀ h, ∃ hs, heights (h + p) code = some hs ∧ hs.getLastD (h + p) = h + q

namespace Moves

variable {a b : List Instruction} {p q r : Nat}

theorem nil : Moves [] p p := fun _ => ⟨[], rfl, rfl⟩

theorem append (ha : Moves a p q) (hb : Moves b q r) : Moves (a ++ b) p r := by
  intro h
  obtain ⟨hs, e, l⟩ := ha h
  obtain ⟨hs', e', l'⟩ := hb h
  refine ⟨hs ++ hs', ?_, ?_⟩
  · rw [heights_append, e, Option.bind_some, l, e']
    rfl
  · rw [← l', ← l]
    cases hs' using List.reverseRecOn <;> simp [List.getLastD_eq_getLast?]

/-- Operands below the ones that the code uses stay where they are. -/
theorem frame (ha : Moves a p q) (k : Nat) : Moves a (k + p) (k + q) := by
  intro h
  obtain ⟨hs, e, l⟩ := ha (h + k)
  exact ⟨hs, by rw [← Nat.add_assoc, e], by rw [← Nat.add_assoc, ← Nat.add_assoc, l]⟩

theorem one (i : Instruction) : Moves [i] i.effect.pops i.effect.pushes := by
  intro h
  refine ⟨[h + i.effect.pushes], ?_, rfl⟩
  simp [heights]

end Moves

end ClassAsm
