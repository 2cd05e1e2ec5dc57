import ClassAsm.Proofs.Flow.Unreachable
import ClassAsm.Proofs.Machine.Simulation

/-! Compiled methods that use numbers only do what their sources say. The machine copies the
arguments, follows the body, and returns at the end of a method without a result. Each ending of the
source is one of the machine. If the source never ends, neither does the machine, and both come to
have noted the same calls. -/

namespace ClassAsm

variable {V E : Type}

/-! From the first instruction to the last. -/

namespace Draft

variable {D x y : Draft} {site : Site} {low : Nat}

variable {c : Context} {M : Meaning V E} {args : List V} {k : Nat}

theorem goes_end (kept : D.current ∈ D.kept) (hd : D.isDead = false)
    (returns : ∀ i ∈ D.kept, (D.segment i).isTerminated = false →
      c.site.returnsVoid = true ∨ (D.segment i).isLive = false) :
    D.GoesFrom c M args k (D.rest c.site D) False [] fun s =>
      .ended (if c.site.returnsVoid then .returned none s.world else .halted .wrong s.world) := by
  obtain ⟨isOpen, live⟩ := isDead_eq_false_iff.1 hd
  have void : c.site.returnsVoid = true := by
    rcases returns _ kept isOpen with void | dark
    · exact void
    · rw [live] at dark
      cases dark
  have last : D.rest c.site D = [.ret false] := by
    rw [rest, closed, List.drop_left, closing_of_open c.site kept isOpen, if_pos void]
  intro s slots hs
  simp only [last, void, if_true]
  refine ⟨?_, 1, rfl⟩
  intro w he
  cases he

theorem after_copy {segments : List Segment} {i : Nat} {v : V} (arg : args[i]? = some v)
    {slots : List V} {slot : Nat} (lt : slot < slots.length) (out : List Instruction)
    (st : List V) (w : World V E) :
    Machine.after M args segments 2 (.inside ([.ldarg i, .stloc slot] ++ out) ⟨st, slots, w⟩) =
      .inside out ⟨st, slots.set slot v, w⟩ := by
  simp [Machine.after, Machine.next, Machine.step, Meaning.effect, arg, Frame.push, lt]

theorem goes_params (fits : c.Fits D.locals) {ps : List (Param × TypeRef)} {vs : List V} {i : Nat}
    (hr : x.InRange) (hd : x.isDead = false) (h : x.params c.site i ps = .ok y) (hg : Grows y D)
    (hi : x.locals.size = i) (hvs : args.drop i = vs) (hl : ps.length = vs.length) :
    D.GoesFrom c M args k (D.rest c.site x) (y.isDead = false) (D.rest c.site y)
      fun s => .next { s with vars := bindAll (ps.map Prod.fst) vs s.vars } := by
  induction ps generalizing x i vs with
  | nil =>
    cases h
    exact fun s slots hs => ⟨hd, 0, slots, hs, rfl⟩
  | cons p ps ih =>
    obtain ⟨p, type⟩ := p
    obtain ⟨v, vs, rfl⟩ := List.exists_cons_of_length_eq_add_one hl.symm
    have arg : args[i]? = some v := by
      rw [← Nat.add_zero i, ← List.getElem?_drop, hvs]
      rfl
    have others : args.drop (i + 1) = vs := by
      rw [← List.tail_drop, hvs]
      rfl
    obtain ⟨fresh, room, h⟩ := params_cons_eq_ok h
    rw [hi] at room h
    have slot : argumentSlot c.site i = i := by
      unfold Locals.limit at room
      simp only [argumentSlot, argumentLimit, fits.isStatic, Bool.false_eq_true, if_false]
      omega
    rw [slot] at h
    let d := x.addLocal p.name type
    have hd₁ : (d.emitAll [.ldarg i, .stloc i]).isDead = false :=
      isDead_emitAll_of_running (x := d) hr hd (copy_leaves i i False).straight
    have size : (d.emitAll [.ldarg i, .stloc i]).locals.size = i + 1 := by
      rw [locals_emitAll]
      exact (Locals.size_add fresh).trans (congrArg (· + 1) hi)
    have grows : Grows (d.emitAll [.ldarg i, .stloc i]) D :=
      (params_step False (hr.emitAll (d := d) _) (fallsThrough_of_running hd₁) h).1.grows.trans hg
    have final : D.locals.find? p.name = some (i, type) := by
      apply grows.locals _ _
      rw [locals_emitAll, ← hi]
      exact Locals.find?_add fresh
    have tail := ih (hr.emitAll (d := d) _) hd₁ h size others (Nat.succ.inj hl)
    intro s slots hs
    obtain ⟨lt, stored⟩ := hs.update final v
    have same : D.rest c.site x = D.rest c.site d := rfl
    rw [same, rest_emitAll (x := d) hr grows]
    exact Goes.after (after_copy arg lt _ _ s.world)
      (tail ⟨Function.update s.vars p.name v, s.world⟩ _ stored)

end Draft

namespace Context

variable {c : Context} {all : Locals} {M : Meaning V E}

theorem Fits.holds_zeros (h : c.Fits all) :
    Holds all (c.zeros M) (c.locals.map fun p => c.zero M p.2) where
  length := by
    rw [List.length_map, h.locals]
    rfl
  value {name slot type} hl := by
    have at' : c.locals[slot]? = some (name, type) := by
      rw [h.locals, Table.toList, Array.getElem?_toList]
      exact Locals.find?_eq_some_iff.1 hl
    rw [List.getElem?_map, at', zeros, (h.known hl).1]
    rfl

end Context

/-! What it means to do the same. -/

def Flow.trace : Flow V E → List E
  | .next s => s.world.trace
  | .ended (.returned _ w) | .ended (.halted _ w) | .running w => w.trace

/-- A source and a machine, each with ever more turns or steps, come to the same. -/
structure Agree (source : Nat → Flow V E) (machine : Nat → Machine V E) : Prop where
  /-- Both end in the same way, with the same value and the same world, or neither ends. -/
  ends : ∀ e, (∃ n, source n = .ended e) ↔ ∃ n, machine n = .done e
  /-- The code has a meaning everywhere. -/
  sound : ∀ n w, source n ≠ .ended (.halted .wrong w)
  /-- Calls that the source has made are made by the machine, -/
  forth : ∀ n, ∃ k, (source n).trace <+: (machine k).world.trace
  /-- and the other way round. -/
  back : ∀ k, ∃ n, (machine k).world.trace <+: (source n).trace

namespace Draft

variable {D : Draft} {c : Context} {M : Meaning V E} {args : List V}

/-- A flow that does not go on has ended, or runs as long as it may. -/
theorem Goes.ended_or_running {n : Nat} {m : Machine V E} {out : List Instruction}
    {flow : Flow V E} (h : D.Goes c M args n m False out flow) :
    (∃ e, flow = .ended e ∧ (∀ w, e ≠ .halted .wrong w) ∧
      ∃ k, Machine.after M args (D.finished c.site) k m = .done e) ∨
    ∃ k ≥ n, ∃ code f, flow = .running f.world ∧
      Machine.after M args (D.finished c.site) k m = .inside code f := by
  cases flow with
  | next s => exact h.1.elim
  | ended e => exact .inl ⟨e, rfl, h⟩
  | running w =>
    obtain ⟨k, hk, code, f, inside, rfl⟩ := h
    exact .inr ⟨k, hk, code, f, rfl, inside⟩

/-- The machine comes as far as the source, which is enough for both directions, since it has just
one run. -/
theorem agree_of_goes {source : Nat → Flow V E} {m : Machine V E} {out : List Instruction}
    (h : ∀ n, D.Goes c M args n m False out (source n)) :
    Agree source fun k => Machine.after M args (D.finished c.site) k m where
  ends e := by
    constructor
    · rintro ⟨n, hn⟩
      have goes := h n
      rw [hn] at goes
      exact goes.2
    · rintro ⟨k, hk⟩
      refine ⟨k + 1, ?_⟩
      rcases (h (k + 1)).ended_or_running with ⟨e', hs, -, n, hn⟩ | ⟨n, hn, code, f, -, inside⟩
      · have one := Machine.after_eq_done_of_le (Nat.le_max_left k n) hk
        rw [Machine.after_eq_done_of_le (Nat.le_max_right k n) hn] at one
        cases one
        exact hs
      · rw [Machine.after_eq_done_of_le (by omega) hk] at inside
        cases inside
  sound n w hw := by
    have goes := h n
    rw [hw] at goes
    exact goes.1 w rfl
  forth n := by
    rcases (h n).ended_or_running with ⟨e, hs, -, k, hk⟩ | ⟨k, -, code, f, hs, inside⟩
    · refine ⟨k, ?_⟩
      rw [hs, hk]
      cases e <;> exact List.prefix_refl _
    · refine ⟨k, ?_⟩
      rw [hs, inside]
      exact List.prefix_refl _
  back k := by
    refine ⟨k, ?_⟩
    have grows {n : Nat} (hn : k ≤ n) :=
      @Machine.trace_after _ _ M args (D.finished c.site) _ _ hn m
    rcases (h k).ended_or_running with ⟨e, hs, -, n, hn⟩ | ⟨n, hn, code, f, hs, inside⟩
    · have upTo := grows (Nat.le_max_left k n)
      rw [Machine.after_eq_done_of_le (Nat.le_max_right k n) hn] at upTo
      rw [hs]
      cases e <;> exact upTo
    · have upTo := grows hn
      rw [inside] at upTo
      rw [hs]
      exact upTo

end Draft

/-! Whole methods. -/

def Job.context (j : Job) (m : Method) : Context := ⟨j.site, m.locals⟩

/-- The machine after a number of steps, from the first segment on and with zeros in the locals. -/
def Context.execute (c : Context) (M : Meaning V E) (args : List V) (segments : List Segment)
    (w : World V E) (n : Nat) : Machine V E :=
  Machine.after M args segments n
    (Machine.jump segments Draft.startName ⟨[], c.locals.map fun p => c.zero M p.2, w⟩)

namespace Job

open Draft

variable {j : Job} {D : Draft} {m : Method} {labels : Nat} {warnings : Array Warning}
  {decl : MethodDecl}

theorem Gives.fits {known : Prop} (hs : j.site.registry.Installed j.site.builtins)
    (h : j.Gives known D m labels warnings) (hn : (j.context m).IsNumeric decl) :
    (j.context m).Fits D.locals where
  installed := hs
  isStatic := hn.isStatic
  locals := h.locals
  numbers := hn.locals

theorem Gives.goes {known : Prop} (hs : j.site.registry.Installed j.site.builtins)
    (h : j.Gives known D m labels warnings) (hd : j.source = .declared decl)
    (hp : j.site.sig.params.map Prod.fst = decl.params.map (·.name))
    (hn : (j.context m).IsNumeric decl) (trim : j.site.options.trimUselessCode = false)
    (M : Meaning V E) {args : List V} (hl : args.length = decl.params.length) (w : World V E)
    (n : Nat) :
    D.Goes (j.context m) M args n
      (Machine.jump (D.finished j.site) startName
        ⟨[], m.locals.map fun p => (j.context m).zero M p.2, w⟩)
      False [] ((j.context m).interpret M decl args w n) := by
  have fits := h.fits hs hn
  have lit : Lit j.site j.warnings D := lit_of_edits h.step.edits
  have shaped := h.shaped
  obtain ⟨d₀, d₁, hop, hr₀, ho₀, hst, -, last⟩ := h.opened
  obtain rfl := last decl hd
  simp only [opening, hd] at hop
  simp only [stmts, hd] at hst
  have body : Step j.site False d₀ d₁ := run_done hs (run_block _ hst) hr₀ trivial False.elim
  have types : (j.site.sig.params.map (·.2)).length = decl.params.length := by
    have lengths := congrArg List.length hp
    rw [List.length_map, List.length_map] at lengths
    rw [List.length_map, lengths]
  have names : (decl.params.zip (j.site.sig.params.map (·.2))).map Prod.fst = decl.params :=
    List.map_fst_zip types.ge
  have inUse {i : Nat} (hi : (d₁.segment i).isLive = true) : i ∈ d₁.kept :=
    lit.mem_kept_of_isLive shaped h.step.inRange hi
  have whole : d₁.rest j.site (start j.labels j.warnings) = (d₁.closed j.site 0).code :=
    rest_of_empty rfl
  have bound : d₁.GoesFrom (j.context m) M args n (d₁.closed j.site 0).code (d₀.isDead = false)
      (d₁.rest j.site d₀) fun s => .next { s with vars := bindAll decl.params args s.vars } := by
    have lengths : (decl.params.zip (j.site.sig.params.map (·.2))).length = args.length := by
      rw [List.length_zip, types, hl, Nat.min_self]
    have bound := goes_params (k := n) (M := M) fits (inRange_start _ _) rfl hop body.grows rfl
      List.drop_zero lengths
    rw [names] at bound
    rwa [← whole]
  have follows : d₀.isDead = false → d₁.GoesFrom (j.context m) M args n (d₁.rest j.site d₀)
      (d₁.isDead = false) (d₁.rest j.site d₁) ((j.context m).execBlock M n decl.body.stmts) :=
    run_follows fits shaped trim n (run_block _ hst) hr₀ trivial (Grows.refl d₁) hn.body
  have returns : d₁.isDead = false → d₁.GoesFrom (j.context m) M args n (d₁.rest j.site d₁) False []
      fun s => .ended
        (if j.site.returnsVoid then .returned none s.world else .halted .wrong s.world) :=
    fun hd₁ => goes_end (inUse (isDead_eq_false_iff.1 hd₁).2) hd₁ h.returns
  rw [← shaped.first, shaped.jump (inUse lit.first)]
  have starts := bound ⟨(j.context m).zeros M, w⟩ _ fits.holds_zeros
  exact starts.andThen fun hd₀ s slots hs => (follows hd₀ s slots hs).andThen returns

end Job

namespace Program

open Draft

/-- A static method that uses numbers only and keeps its useless code does what its source says,
whatever numbers and calls mean. -/
theorem numeric_methods_run_as_read {options : Options} {items : List Item} {j : Job}
    (hj : j ∈ jobs options items) (trim : options.trimUselessCode = false) {decl : MethodDecl}
    (hd : j.source = .declared decl) {m : Method} {labels : Nat} {warnings : Array Warning}
    (h : j.compile = .ok (m, labels, warnings)) (hn : (j.context m).IsNumeric decl)
    (M : Meaning V E) {args : List V} (hl : args.length = decl.params.length) (w : World V E) :
    Agree ((j.context m).interpret M decl args w) ((j.context m).execute M args m.segments w) := by
  have hs := installed_of_mem_jobs hj
  obtain ⟨_, -, held⟩ := holds_of_mem_jobs hj
  rw [← held.options] at trim
  obtain ⟨D, gives⟩ := Job.gives False hs False.elim h
  have hp := params_of_mem_jobs hj hd
  rw [gives.segments]
  exact agree_of_goes fun n => gives.goes hs hd hp hn trim M hl w n

/-- Integers without bounds for all numbers. A division by zero traps, and a call notes its target
and gives back what its arguments come to. -/
def integers : Meaning Int String where
  int32 v := v.toInt
  int64 v := v.toInt
  single v := v.bits.toNat
  double v := v.bits.toNat
  isTrue v := v != 0
  arith
    | .add, a, b => some (a + b)
    | .sub, a, b => some (a - b)
    | .mul, a, b => some (a * b)
    | .div, a, b => if b = 0 then none else some (a.tdiv b)
    | .rem, a, b => if b = 0 then none else some (a.tmod b)
    | .ceq, a, b => some (if a = b then 1 else 0)
    | .cgt, a, b | .cgtUn, a, b => some (if b < a then 1 else 0)
    | .clt, a, b => some (if a < b then 1 else 0)
    | .xor, _, _ | .and, _, _ | .or, _, _ => none
  neg v := some (-v)
  conv _ v := some v
  call target vs fields := ⟨fields, [target], .value vs.sum⟩

theorem numeric_methods_run_as_read_meter : ∃ j ∈ jobs {} meter, ∃ decl m labels warnings,
    j.source = .declared decl ∧ j.compile = .ok (m, labels, warnings) ∧
      (j.context m).IsNumeric decl ∧
      Agree ((j.context m).interpret integers decl [3] ⟨fun _ => 0, []⟩)
        ((j.context m).execute integers [3] m.segments ⟨fun _ => 0, []⟩) := by
  have first : ((jobs {} meter).head?.any fun j =>
      match j.source, j.compile with
      | .declared decl, .ok (m, _, _) =>
        decide ((j.context m).IsNumeric decl ∧ [3].length = decl.params.length)
      | _, _ => false) = true := by
    decide +kernel
  obtain ⟨j, hj, checks⟩ := (Option.any_eq_true _ _).1 first
  have mem := List.mem_of_mem_head? hj
  split at checks
  · next decl m labels warnings hd h =>
    obtain ⟨hn, hl⟩ := of_decide_eq_true checks
    exact ⟨j, mem, decl, m, labels, warnings, hd, h, hn,
      numeric_methods_run_as_read mem rfl hd h hn integers hl ⟨fun _ => 0, []⟩⟩
  · cases checks

end Program
end ClassAsm
