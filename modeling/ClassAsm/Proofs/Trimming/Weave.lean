import ClassAsm.Proofs.Trimming.Host

/-! Two methods that do the same. Their code agrees instruction by instruction, but the first may
have quiet code in between that leaves the stack as it was. Wherever the first method comes, the
second does too; only where such code traps may the second go on. -/

namespace ClassAsm

/-- Code that agrees with the other code but for what is skipped. -/
inductive Weaves (R : Instruction → Instruction → Prop) (Skips : List Instruction → Prop) :
    List Instruction → List Instruction → Prop where
  | nil : Weaves R Skips [] []
  | cons {i i' : Instruction} {c c' : List Instruction} (hi : R i i') (hc : Weaves R Skips c c') :
      Weaves R Skips (i :: c) (i' :: c')
  | skip {b c c' : List Instruction} (hb : Skips b) (hc : Weaves R Skips c c') :
      Weaves R Skips (b ++ c) c'

namespace Weaves

variable {R R' : Instruction → Instruction → Prop} {Skips Skips' : List Instruction → Prop}
  {a a' b c c' : List Instruction}

theorem append (ha : Weaves R Skips a a') (hc : Weaves R Skips c c') :
    Weaves R Skips (a ++ c) (a' ++ c') := by
  induction ha with
  | nil => exact hc
  | cons hi _ ih => exact .cons hi ih
  | skip hb _ ih =>
    rw [List.append_assoc]
    exact .skip hb ih

theorem of_forall₂ (h : List.Forall₂ R c c') : Weaves R Skips c c' := by
  induction h with
  | nil => exact .nil
  | cons hi _ ih => exact .cons hi ih

theorem of_skips (hb : Skips b) : Weaves R Skips b [] := by
  simpa using Weaves.skip (R := R) hb .nil

theorem imp (h : Weaves R Skips c c') (hr : ∀ i ∈ c, ∀ i', R i i' → R' i i')
    (hs : ∀ b, Skips b → Skips' b) : Weaves R' Skips' c c' := by
  induction h with
  | nil => exact .nil
  | cons hi _ ih =>
    exact .cons (hr _ (by simp) _ hi) (ih fun i hi => hr i (by simp [hi]))
  | skip hb _ ih => exact .skip (hs _ hb) (ih fun i hi => hr i (by simp [hi]))

end Weaves

/-! Methods. -/

/-- Instructions of two methods that do the same, where branches lead to labels that belong
together. -/
inductive Matches (m m' : Method) (Joined : String → String → Prop) :
    Instruction → Instruction → Prop where
  | deed {i i' : Instruction} (hi : i.isControl = false) (hi' : i'.isControl = false)
      (effect : i'.effect = i.effect) (same : i'.deed? m'.locals = i.deed? m.locals) :
      Matches m m' Joined i i'
  | ret (hasValue : Bool) : Matches m m' Joined (.ret hasValue) (.ret hasValue)
  | jump {make : String → Instruction} {n : Nat} (hj : Draft.Jump make n) {l l' : String}
      (hl : Joined l l') : Matches m m' Joined (make l) (make l')

/-- Quiet code that leaves the stack as it was, if any may be skipped. -/
structure Idle (skips : Prop) (locals : List (String × TypeRef)) (code : List Instruction) :
    Prop where
  skips : skips
  settled : Host.Settled locals code
  moves : Moves code 0 0

/-- The methods agree in segments that belong together, and so do the segments that these lead
to. -/
structure Mirrors (skips : Prop) (m m' : Method) (Joined : String → String → Prop) : Prop where
  start : Joined Draft.startName Draft.startName
  segments : ∀ l l', Joined l l' → ∃ s s', m.segments.find? (·.name == l) = some s ∧
    m'.segments.find? (·.name == l') = some s' ∧
    Weaves (Matches m m' Joined) (Idle skips m.locals) s.code s'.code

namespace Host

variable {V W E : Type}

/-- What two runs have in common. If code has been skipped, the first may end in a trap where the
second goes on. -/
structure Keeps (h : Host V W E) (skips : Prop) (m m' : Method) (s s' : State V W E) : Prop where
  ends : ∀ e, h.Ends m s e → h.Ends m' s' e ∨ skips ∧ h.Traps m s e.world
  ended : ∀ e, h.Ends m' s' e → h.Ends m s e ∨ skips ∧ ∃ w, h.Traps m s w
  reaches : ∀ w, h.Reaches m s w → h.Reaches m' s' w
  reached : ∀ w, h.Reaches m' s' w → h.Reaches m s w ∨ skips ∧ ∃ w, h.Traps m s w

variable {h : Host V W E} {skips : Prop} {m m' : Method} {Joined : String → String → Prop}
  {s s' : State V W E}

/-- The same stack and the same world in front of code that agrees. -/
inductive Woven (skips : Prop) (m m' : Method) (Joined : String → String → Prop) :
    State V W E → State V W E → Prop where
  | inside {c c' : List Instruction}
      (hc : Weaves (Matches m m' Joined) (Idle skips m.locals) c c') (stack : List V) (w : W) :
      Woven skips m m' Joined (.inside c stack w) (.inside c' stack w)
  | done (e : Ending V W E) : Woven skips m m' Joined (.done e) (.done e)

theorem woven_jump (hm : Mirrors skips m m' Joined) {l l' : String} (hl : Joined l l')
    (stack : List V) (w : W) :
    Woven (E := E) skips m m' Joined (jump m l stack w) (jump m' l' stack w) := by
  obtain ⟨s, s', found, found', code⟩ := hm.segments l l' hl
  rw [jump, jump, found, found']
  exact .inside code stack w

theorem woven_step (hm : Mirrors skips m m' Joined) {i i' : Instruction}
    (hi : Matches m m' Joined i i') {c c' : List Instruction}
    (hc : Weaves (Matches m m' Joined) (Idle skips m.locals) c c') (stack : List V) (w : W) :
    Woven skips m m' Joined (h.step m i c stack w) (h.step m' i' c' stack w) := by
  cases hi with
  | deed hi hi' effect same =>
    have performs : h.perform m' i' stack w = h.perform m i stack w := by
      simp only [perform, same, effect]
    rw [step_of_not_isControl hi, step_of_not_isControl hi', performs]
    cases h.perform m i stack w with
    | error e => exact .done e
    | ok r => exact .inside hc _ _
  | ret hasValue =>
    rcases hasValue with _ | _ <;> rcases stack with _ | ⟨v, _ | ⟨v', stack⟩⟩ <;> exact .done _
  | jump hj hl =>
    have leads := fun stack : List V => woven_jump (E := E) hm hl stack w
    cases hj with
    | always => exact leads stack
    | ifTrue =>
      cases stack with
      | nil => exact .done _
      | cons v stack =>
        simp only [step]
        split
        · exact leads stack
        · exact .inside hc _ _
    | ifFalse =>
      cases stack with
      | nil => exact .done _
      | cons v stack =>
        simp only [step]
        split
        · exact .inside hc _ _
        · exact leads stack

theorem after_idle {b : List Instruction} (hb : Idle skips m.locals b) (c : List Instruction)
    (stack : List V) (w : W) :
    (h.after m b.length (.inside (b ++ c) stack w) = .inside c stack w ∧
        ∀ n ≤ b.length, (h.after m n (.inside (b ++ c) stack w)).world = w) ∨
      h.Traps m (.inside (b ++ c) stack w) w ∧
        ∀ n, (h.after m n (.inside (b ++ c) stack w)).world = w := by
  obtain ⟨hs, hh, last⟩ := hb.moves 0
  rcases after_settled (h := h) hb.settled (a := []) hh c stack w with ⟨b', comes, hl, same⟩ | traps
  · obtain rfl : b' = [] := List.length_eq_zero_iff.1 (hl.trans last)
    exact .inl ⟨comes, same⟩
  · exact .inr traps

/-- What the first machine comes to, the second does too. -/
theorem follows (hm : Mirrors skips m m' Joined) (n : Nat) :
    ∀ s s' : State V W E, Woven skips m m' Joined s s' →
      (∀ e, h.after m n s = .done e → h.Ends m' s' e ∨ skips ∧ h.Traps m s e.world) ∧
        h.Reaches m' s' (h.after m n s).world := by
  induction n using Nat.strong_induction_on with
  | _ n ih =>
    intro s s' hs
    cases hs with
    | done e =>
      rw [after_done]
      exact ⟨fun e' he => .inl ⟨0, he⟩, .here _⟩
    | @inside c c' hc stack w =>
      induction hc with
      | nil =>
        cases n with
        | zero => exact ⟨nofun, .here _⟩
        | succ n =>
          have wrong : h.after m (n + 1) (.inside [] stack w) = .done (.wrong w) := after_done _ _
          rw [wrong]
          exact ⟨fun e he => .inl ⟨1, he⟩, 1, rfl⟩
      | @cons i i' c c' hi hc _ =>
        cases n with
        | zero => exact ⟨nofun, .here _⟩
        | succ n =>
          obtain ⟨ends, reaches⟩ := ih n (Nat.lt_succ_self n) _ _ (woven_step hm hi hc stack w)
          refine ⟨fun e he => ?_, Reaches.after (n := 1) reaches⟩
          rcases ends e he with ends | ⟨hk, traps⟩
          · exact .inl (Ends.after (n := 1) ends)
          · exact .inr ⟨hk, Traps.after (n := 1) traps⟩
      | @skip b c c' hb hc ihc =>
        rcases after_idle (h := h) hb c stack w with ⟨comes, same⟩ | ⟨traps, same⟩
        · rcases Nat.lt_or_ge n b.length with inB | pastB
          · rw [same n inB.le]
            refine ⟨fun e he => ?_, .here _⟩
            obtain ⟨k, hk⟩ := Nat.exists_eq_add_of_le inB.le
            rw [hk, after_add, he, after_done] at comes
            cases comes
          · obtain ⟨k, rfl⟩ := Nat.exists_eq_add_of_le pastB
            rcases Nat.eq_zero_or_pos b.length with empty | some
            · obtain rfl := List.length_eq_zero_iff.1 empty
              simpa using ihc
            · obtain ⟨ends, reaches⟩ := ih k (by omega) _ _ (.inside hc stack w)
              rw [after_add, comes]
              refine ⟨fun e he => (ends e he).imp id fun ⟨hk, traps⟩ => ⟨hk, ?_⟩, reaches⟩
              apply Traps.after (n := b.length)
              rw [comes]
              exact traps
        · rw [same n]
          refine ⟨fun e he => .inr ⟨hb.skips, ?_⟩, .here _⟩
          have world := same n
          rw [he] at world
          change e.world = w at world
          rw [world]
          exact traps

/-- What the second machine comes to, the first does too, unless it traps. -/
theorem followed (hm : Mirrors skips m m' Joined) (n : Nat) :
    ∀ s s' : State V W E, Woven skips m m' Joined s s' →
      (∀ e, h.after m' n s' = .done e → h.Ends m s e ∨ skips ∧ ∃ w, h.Traps m s w) ∧
        (h.Reaches m s (h.after m' n s').world ∨ skips ∧ ∃ w, h.Traps m s w) := by
  induction n with
  | zero =>
    intro s s' hs
    cases hs with
    | done e => exact ⟨fun e' he => .inl ⟨0, he⟩, .inl (.here _)⟩
    | inside hc stack w => exact ⟨nofun, .inl (.here _)⟩
  | succ n ih =>
    intro s s' hs
    cases hs with
    | done e =>
      rw [after_done]
      exact ⟨fun e' he => .inl ⟨0, he⟩, .inl (.here _)⟩
    | @inside c c' hc stack w =>
      induction hc with
      | nil =>
        have wrong : h.after m' (n + 1) (.inside [] stack w) = .done (.wrong w) := after_done _ _
        rw [wrong]
        exact ⟨fun e he => .inl ⟨1, he⟩, .inl ⟨1, rfl⟩⟩
      | @cons i i' c c' hi hc _ =>
        obtain ⟨ended, reached⟩ := ih _ _ (woven_step hm hi hc stack w)
        have back {s : State V W E} : (skips ∧ ∃ w, h.Traps m (h.next m s) w) →
            skips ∧ ∃ w, h.Traps m s w := fun ⟨hk, w, traps⟩ => ⟨hk, w, Traps.after (n := 1) traps⟩
        exact ⟨fun e he => (ended e he).imp (Ends.after (n := 1)) back,
          reached.imp (Reaches.after (n := 1)) back⟩
      | @skip b c c' hb hc ihc =>
        obtain ⟨ended, reached⟩ := ihc
        rcases after_idle (h := h) hb c stack w with ⟨comes, -⟩ | ⟨traps, -⟩
        · have back : (skips ∧ ∃ w', h.Traps m (.inside c stack w) w') →
              skips ∧ ∃ w', h.Traps m (.inside (b ++ c) stack w) w' := by
            rintro ⟨hk, w', traps⟩
            refine ⟨hk, w', Traps.after (n := b.length) ?_⟩
            rw [comes]
            exact traps
          refine ⟨fun e he => (ended e he).imp (fun ends => ?_) back,
            reached.imp (fun reaches => ?_) back⟩
          · apply Ends.after (n := b.length)
            rw [comes]
            exact ends
          · apply Reaches.after (n := b.length)
            rw [comes]
            exact reaches
        · exact ⟨fun e _ => .inr ⟨hb.skips, w, traps⟩, .inr ⟨hb.skips, w, traps⟩⟩

theorem keeps_of_mirrors (hm : Mirrors skips m m' Joined) (h : Host V W E) (w : W) :
    h.Keeps skips m m' (start m w) (start m' w) := by
  have woven : Woven (E := E) skips m m' Joined (start (V := V) m w) (start m' w) :=
    woven_jump hm hm.start [] w
  refine ⟨?_, ?_, ?_, ?_⟩
  · rintro e ⟨n, he⟩
    exact (follows hm n _ _ woven).1 e he
  · rintro e ⟨n, he⟩
    exact (followed hm n _ _ woven).1 e he
  · rintro _ ⟨n, rfl⟩
    exact (follows hm n _ _ woven).2
  · rintro _ ⟨n, rfl⟩
    exact (followed hm n _ _ woven).2

end Host
end ClassAsm
