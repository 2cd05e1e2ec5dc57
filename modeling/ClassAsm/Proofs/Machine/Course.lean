import ClassAsm.Proofs.Flow.Graph
import ClassAsm.Proofs.Machine.Expressions

/-! The course of the machine. Where the body so far leaves it in the middle of a segment, the rest
of that segment in the finished method begins with the code of the next statement. Where it goes
from there is told by the flow of the source. -/

namespace ClassAsm.Draft

variable {V E : Type}

/-- What the final draft has in the current segment beyond the present one. -/
def rest (D : Draft) (site : Site) (x : Draft) : List Instruction :=
  (D.closed site x.current).code.drop (x.codeAt x.current).length

variable {D x y : Draft} {site : Site} {low t : Nat}

theorem rest_of_code {code : List Instruction} (hg : Grows y D) (hc : y.current = x.current)
    (h : y.codeAt x.current = x.codeAt x.current ++ code) :
    D.rest site x = code ++ D.rest site y := by
  obtain ⟨more, hm⟩ := hg.code x.current
  have before : D.rest site x = code ++ (more ++ D.closing site x.current) := by
    rw [rest, closed, ← hm, h, List.append_assoc, List.append_assoc, List.drop_left]
  have behind : D.rest site y = more ++ D.closing site x.current := by
    rw [rest, closed, hc, ← hm, List.append_assoc, List.drop_left]
  rw [before, behind]

theorem rest_emitAll (hr : x.InRange) {code : List Instruction} (hg : Grows (x.emitAll code) D) :
    D.rest site x = code ++ D.rest site (x.emitAll code) :=
  rest_of_code hg (current_emitAll code) (by rw [codeAt_emitAll hr, if_pos rfl])

theorem rest_branch (hr : x.InRange) {make : String → Instruction}
    (hg : Grows (x.branch make t) D) :
    D.rest site x = make (x.segment t).name :: D.rest site (x.branch make t) :=
  @rest_of_code D x (x.branch make t) site [_] hg rfl (by rw [codeAt_branch _ hr, if_pos rfl])

theorem rest_of_empty (h : x.codeAt x.current = []) :
    D.rest site x = (D.closed site x.current).code := by
  rw [rest, h]
  rfl

theorem Shaped.jump (shaped : Shaped low D) (ht : t ∈ D.kept) (f : Frame V E) :
    Machine.jump (D.finished site) (D.segment t).name f = .inside (D.closed site t).code f := by
  rw [Machine.jump, shaped.find?_finished site ht]

/-- So does the name of a segment that a branch leads to already. -/
theorem Shaped.jump_of_isTargeted (shaped : Shaped low D) (site : Site) (hg : Grows x D)
    (ht : (x.segment t).isTargeted = true) (f : Frame V E) :
    Machine.jump (D.finished site) (x.segment t).name f = .inside (D.closed site t).code f := by
  have lt : t < x.segments.size := by
    by_contra h
    simp [segment, not_lt.1 h] at ht
    cases ht
  rw [← hg.name t lt]
  exact shaped.jump (mem_kept_of_isTargeted (lt.trans_le hg.size) (hg.targeted t ht)) f

/-! Where the machine goes. -/

section

variable (D) (c : Context) (M : Meaning V E) (args : List V)

/-- From here the machine does what the flow says. If that is to go on, it comes to the given code
with no operands left, and that code is live. If the flow is still running, so is the machine after
at least the given number of steps. -/
def Goes (k : Nat) (m : Machine V E) (live : Prop) (out : List Instruction) : Flow V E → Prop
  | .next s => live ∧ ∃ n slots, Holds D.locals s.vars slots ∧
    Machine.after M args (D.finished c.site) n m = .inside out ⟨[], slots, s.world⟩
  | .ended e => (∀ w, e ≠ .halted .wrong w) ∧
    ∃ n, Machine.after M args (D.finished c.site) n m = .done e
  | .running w => ∃ n ≥ k, ∃ code f,
    Machine.after M args (D.finished c.site) n m = .inside code f ∧ f.world = w

/-- Whatever the store is at the given code. -/
def GoesFrom (k : Nat) (code : List Instruction) (live : Prop) (out : List Instruction)
    (g : Store V E → Flow V E) : Prop :=
  ∀ s slots, Holds D.locals s.vars slots →
    D.Goes c M args k (.inside code ⟨[], slots, s.world⟩) live out (g s)

end

variable {c : Context} {M : Meaning V E} {args : List V} {k k' : Nat} {m m' : Machine V E}
  {live live' : Prop} {out out' : List Instruction} {flow : Flow V E}

theorem Goes.mono (h : D.Goes c M args k' m live out flow) (hk : k ≤ k') :
    D.Goes c M args k m live out flow := by
  cases flow with
  | next | ended => exact h
  | running w =>
    obtain ⟨n, hn, found⟩ := h
    exact ⟨n, hk.trans hn, found⟩

theorem Goes.steps {n : Nat} (hm : Machine.after M args (D.finished c.site) n m = m')
    (h : D.Goes c M args k m' live out flow) : D.Goes c M args (k + n) m live out flow := by
  cases flow with
  | next s =>
    obtain ⟨hl, n', slots, hs, he⟩ := h
    exact ⟨hl, n + n', slots, hs, by rw [Machine.after_add, hm, he]⟩
  | ended e =>
    obtain ⟨fine, n', he⟩ := h
    exact ⟨fine, n + n', by rw [Machine.after_add, hm, he]⟩
  | running w =>
    obtain ⟨n', hn, code, f, he, hw⟩ := h
    exact ⟨n + n', by omega, code, f, by rw [Machine.after_add, hm, he], hw⟩

theorem Goes.after {n : Nat} (hm : Machine.after M args (D.finished c.site) n m = m')
    (h : D.Goes c M args k m' live out flow) : D.Goes c M args k m live out flow :=
  (h.steps hm).mono (Nat.le_add_right k n)

theorem Goes.andThen {g : Store V E → Flow V E} (h : D.Goes c M args k m live out flow)
    (hg : live → D.GoesFrom c M args k out live' out' g) :
    D.Goes c M args k m live' out' (flow.andThen g) := by
  cases flow with
  | next s =>
    obtain ⟨hl, n, slots, hs, he⟩ := h
    exact (hg hl s slots hs).after he
  | ended e => exact h
  | running w => exact h

theorem Goes.onward (h : D.Goes c M args k m live out flow) (hl : live → live')
    (more : live → ∀ slots w, ∃ n, Machine.after M args (D.finished c.site) n
      (.inside out ⟨[], slots, w⟩) = .inside out' ⟨[], slots, w⟩) :
    D.Goes c M args k m live' out' flow := by
  cases flow with
  | next s =>
    obtain ⟨alive, n, slots, hs, he⟩ := h
    obtain ⟨n', he'⟩ := more alive slots s.world
    exact ⟨hl alive, n + n', slots, hs, by rw [Machine.after_add, he, he']⟩
  | ended e => exact h
  | running w => exact h

theorem GoesFrom.mono {code : List Instruction} {g : Store V E → Flow V E}
    (h : D.GoesFrom c M args k' code live out g) (hk : k ≤ k') :
    D.GoesFrom c M args k code live out g :=
  fun s slots hs => (h s slots hs).mono hk

/-- The value of an expression comes onto the stack. -/
theorem Goes.withValue {e : Expr} {code : Code} (ev : c.Evaluates D.locals M args e code)
    (straight : Straight code.instructions) {more : List Instruction}
    {g : V → Store V E → Flow V E} {s : Store V E} {slots : List V}
    (hs : Holds D.locals s.vars slots)
    (hg : ∀ v w, D.Goes c M args k
      (.inside more ⟨List.replicate ((c.site.scope D.locals).pushes code.type) v, slots, w⟩)
      live out (g v { s with world := w })) :
    D.Goes c M args k (.inside (code.instructions ++ more) ⟨[], slots, s.world⟩) live out
      (c.withValue M e s g) := by
  have ran := @Machine.after_of_straight _ _ M args (D.finished c.site) _ straight more
    ⟨[], slots, s.world⟩
  rw [ev.runs s.vars ⟨[], slots, s.world⟩ hs] at ran
  unfold Context.withValue
  cases he : c.eval M s.vars e s.world with
  | error h =>
    rw [he] at ran
    refine ⟨?_, _, ran⟩
    intro w hw
    obtain ⟨why, w'⟩ := h
    cases hw
    exact ev.fine _ _ _ he
  | ok r =>
    rw [he] at ran
    simp only [Except.map, List.append_nil] at ran
    exact (hg r.1 r.2).after ran

theorem Goes.withOne {e : Expr} {code : Code} (ev : c.Evaluates D.locals M args e code)
    (hv : (c.site.scope D.locals).isVoid code.type = false) (straight : Straight code.instructions)
    {more : List Instruction} {g : V → Store V E → Flow V E} {s : Store V E} {slots : List V}
    (hs : Holds D.locals s.vars slots)
    (hg : ∀ v w, D.Goes c M args k (.inside more ⟨[v], slots, w⟩) live out
      (g v { s with world := w })) :
    D.Goes c M args k (.inside (code.instructions ++ more) ⟨[], slots, s.world⟩) live out
      (c.withValue M e s g) := by
  apply Goes.withValue ev straight hs
  intro v w
  rw [Scope.pushes_of_not_isVoid hv]
  exact hg v w

theorem GoesFrom.choose {e : Expr} {code : Code} (ev : c.Evaluates D.locals M args e code)
    (hv : (c.site.scope D.locals).isVoid code.type = false) (straight : Straight code.instructions)
    {more ifTrue ifFalse : List Instruction} {body other : Store V E → Flow V E}
    (branches : ∀ v slots w,
      Machine.next M args (D.finished c.site) (.inside more ⟨[v], slots, w⟩) =
        .inside (if M.isTrue v then ifTrue else ifFalse) ⟨[], slots, w⟩)
    (hbody : D.GoesFrom c M args k ifTrue live out body)
    (hother : D.GoesFrom c M args k ifFalse live out other) :
    D.GoesFrom c M args (k + 1) (code.instructions ++ more) live out (c.choose M e body other) := by
  intro s slots hs
  apply Goes.withOne ev hv straight hs
  intro v w
  refine Goes.steps (n := 1) (branches v slots w) ?_
  cases M.isTrue v with
  | true => exact hbody { s with world := w } slots hs
  | false => exact hother { s with world := w } slots hs

end ClassAsm.Draft
