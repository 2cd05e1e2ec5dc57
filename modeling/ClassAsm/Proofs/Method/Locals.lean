import ClassAsm.Proofs.Method.Emits
import ClassAsm.Proofs.Method.Finish

/-! The locals of a method. They change only where a parameter or a variable is bound, so a property
that outlasts this holds of the locals wherever the compilation is. -/

namespace ClassAsm.Draft

variable {site : Site} {d d' : Draft}

/-! What leaves the locals as they are. -/

theorem locals_noted (site : Site) (d : Draft) (e : Expr) : (d.noted site e).locals = d.locals := by
  rcases @noted_eq_or site d e with he | he <;> rw [he]
  rfl

theorem locals_join (d : Draft) (t : Nat) : (d.join t).locals = d.locals := by
  unfold join
  split <;> rfl

theorem locals_condition {a : Arm} {segment : Nat}
    (h : d.condition site a = .ok (segment, d')) : d'.locals = d.locals := by
  obtain ⟨c, -, -, rfl⟩ := condition_eq_ok.1 h
  rw [locals_branch, locals_emitAll]
  rfl

/-- What holds before conditions, and what each of them keeps, holds behind them. They are compiled
with the same locals. -/
theorem conditions_invariant {P : Draft → Prop} {as : List Arm} {segments : List Nat}
    (h : d.conditions site as = .ok (segments, d')) (start : P d)
    (step : ∀ a ∈ as, ∀ x y segment, x.locals = d.locals → P x →
      x.condition site a = .ok (segment, y) → P y) : P d' := by
  induction as generalizing d segments with
  | nil =>
    cases h
    exact start
  | cons a as ih =>
    obtain ⟨segment, d₁, rest, ha, hr, rfl⟩ := conditions_cons_eq_ok.1 h
    refine ih hr (step a List.mem_cons_self d d₁ segment rfl start ha) fun b hb x y t same => ?_
    exact step b (List.mem_cons_of_mem a hb) x y t (same.trans (locals_condition ha))

theorem condStart_invariant {P : Draft → Prop} {as : List Arm} {after : Nat} {segments : List Nat}
    (h : d.condStart site as = .ok (after, segments, d'))
    (start : P (d.spawnFresh "AfterCond" false).2)
    (step : ∀ a ∈ as, ∀ x y segment, x.locals = d.locals → P x →
      x.condition site a = .ok (segment, y) → P y) : P d' :=
  conditions_invariant (condStart_eq_ok.1 h).2 start step

theorem locals_condStart {as : List Arm} {after : Nat} {segments : List Nat}
    (h : d.condStart site as = .ok (after, segments, d')) : d'.locals = d.locals :=
  condStart_invariant (P := fun x => x.locals = d.locals) h rfl
    fun _ _ _ _ _ same _ ha => (locals_condition ha).trans same

theorem locals_loopStart {e : Expr} {cond after : Nat}
    (h : d.loopStart site e = .ok (cond, after, d')) : d'.locals = d.locals := by
  obtain ⟨c, -, -, -, rfl⟩ := loopStart_eq_ok.1 h
  rw [locals_branch, locals_emitAll]
  rfl

theorem locals_defaults {isStatic : Bool} {fs : List Field}
    (h : d.defaults site isStatic fs = .ok d') : d'.locals = d.locals := by
  induction fs generalizing d with
  | nil =>
    cases h
    rfl
  | cons f fs ih =>
    by_cases skip : f.default = none ∨ f.isStatic ≠ isStatic
    · rw [defaults_cons_of_other fs skip] at h
      exact ih h
    · push Not at skip
      obtain ⟨stored, rfl⟩ := skip
      obtain ⟨value, hv⟩ := Option.ne_none_iff_exists'.1 stored
      obtain ⟨_, -, -, h⟩ := (defaults_cons_eq_ok hv).1 h
      rw [ih h, locals_emitAll]

/-! What holds of the locals all along. -/

/-- The property lasts while names are bound to types that are resolved or that values have. -/
structure Lasts (site : Site) (P : Locals → Prop) : Prop where
  resolved : ∀ {l name text span type} (new : l.find? name = none), P l →
    (site.scope l).resolveType text span = .ok type → P (l.add name type new)
  value : ∀ {l name e c} (new : l.find? name = none), P l →
    (site.scope l).valueCode e = .ok c → P (l.add name c.type new)

namespace Lasts

variable {P : Locals → Prop} (h : Lasts site P)

theorem binds {name : String} {type : TypeRef} {slot : Nat} (hb : Binds d name type slot d')
    (added : ∀ new, P (d.locals.add name type new)) (hp : P d.locals) : P d'.locals := by
  cases hb with
  | known => exact hp
  | new new => exact added new

include h

theorem assigned {name : String} {e : Expr} {typeName : Option String}
    (ha : Assigned site d name e typeName d') (hp : P d.locals) : P d'.locals := by
  cases ha with
  | toStatic | toInstance | through => rwa [locals_emitAll]
  | toLocal _ _ _ hc hb =>
    rw [locals_emitAll]
    exact binds hb (h.value · hp hc) hp

theorem run {t : Task} (hr : Run site t d d') : P d.locals → P d'.locals := by
  induction hr with
  | done | noArms => exact id
  | drop ha => exact fun hp => by rwa [(Draft.admits ha).locals]
  | next ha _ _ ihs ihr => exact fun hp => ihr (ihs (by rwa [(Draft.admits ha).locals]))
  | expr he =>
    intro hp
    obtain ⟨-, -, rfl⟩ | ⟨_, -, rfl⟩ := exprStmt_emits he
    · rwa [locals_noted]
    · rwa [locals_emitAll, locals_noted]
  | declare hd =>
    obtain ⟨_, _, ht, hb⟩ := declare_emits hd
    exact fun hp => binds hb (h.resolved · hp ht) hp
  | assign ha => exact h.assigned (assign_emits ha)
  | ret hret =>
    intro hp
    obtain ⟨-, -, rfl⟩ | ⟨_, _, -, -, -, rfl⟩ := returnStmt_emits hret
    · exact hp
    · exact (locals_emitAll (d := _) _).symm ▸ hp
  | loop hl _ ih =>
    intro hp
    exact (locals_join _ _).symm ▸ ih ((locals_loopStart hl).symm ▸ hp)
  | cond hc _ _ iho iha =>
    intro hp
    exact iha ((locals_join _ _).symm ▸ iho ((locals_condStart hc).symm ▸ hp))
  | arm _ _ ih iht => exact fun hp => iht ((locals_join _ _).symm ▸ ih hp)

theorem leads {t t' : Task} (hl : Leads site (t, d) (t', d')) (hp : P d.locals) :
    P d'.locals := by
  cases hl with
  | first ha => rwa [(Draft.admits ha).locals]
  | rest ha hs => exact h.run (run_one _ hs) (by rwa [(Draft.admits ha).locals])
  | body hs => rwa [locals_loopStart hs]
  | otherwise hs => rwa [locals_condStart hs]
  | arms hs ho =>
    rw [locals_join]
    exact h.run (run_block _ ho) (by rwa [locals_condStart hs])
  | arm => exact hp
  | nextArms hs =>
    rw [locals_join]
    exact h.run (run_block _ hs) hp

theorem reaches {t t' : Task} (hl : Relation.ReflTransGen (Leads site) (t, d) (t', d'))
    (hp : P d.locals) : P d'.locals := by
  generalize hx : (t, d) = x at hl
  generalize hy : (t', d') = y at hl
  induction hl generalizing t' d' with
  | refl =>
    cases hx.trans hy.symm
    exact hp
  | @tail y _ _ step ih =>
    subst hy
    exact h.leads step (ih rfl)

end Lasts

/-- So it does while arguments are copied, if it outlasts their names. -/
theorem params_locals {P : Locals → Prop} {n : Nat} {ps : List (Param × TypeRef)}
    (added : ∀ p ∈ ps, ∀ l new, P l → P (l.add p.1.name p.2 new)) (h : d.params site n ps = .ok d')
    (hp : P d.locals) : P d'.locals := by
  induction ps generalizing d n with
  | nil =>
    cases h
    exact hp
  | cons p ps ih =>
    obtain ⟨p, type⟩ := p
    obtain ⟨here, rest⟩ := List.forall_mem_cons.1 added
    obtain ⟨new, -, h⟩ := params_cons_eq_ok h
    refine ih rest h ?_
    rw [locals_emitAll]
    exact here _ new hp

end Draft

/-- It holds of the locals of the compiled method. -/
theorem Draft.Lasts.compile {P : Locals → Prop} {m m' : Method} {site : Site}
    {source : MethodSource} {l l' : Nat} {w w' : Array Warning} (lasts : Lasts site P)
    (empty : P {}) (added : ∀ p ∈ site.sig.params, ∀ l name new, P l → P (l.add name p.2 new))
    (h : m.compile site source l w = .ok (m', l', w')) :
    ∃ locals : Locals, m'.locals = locals.toList ∧ P locals := by
  obtain ⟨segments, d', hsrc, rfl, -⟩ := Method.compile_eq_ok.1 h
  suffices ∃ (d : Draft) (span : Span), P d.locals ∧ d.finish site span = .ok (segments, d') by
    obtain ⟨d, span, hp, hf⟩ := this
    exact ⟨d.locals, congrArg Table.toList (Draft.finish_eq_ok hf).locals, hp⟩
  cases source with
  | declared decl =>
    simp only [Draft.source, bind_eq_ok] at hsrc
    obtain ⟨d₀, hp, d, hd, hf⟩ := hsrc
    refine ⟨d, _, lasts.run (run_block _ hd) (params_locals (fun p hm l new => ?_) hp empty), hf⟩
    obtain ⟨q, hq, same⟩ := List.mem_map.1 (List.of_mem_zip hm).2
    exact same ▸ added q hq l p.1.name new
  | initializer isStatic =>
    simp only [Draft.source, bind_eq_ok] at hsrc
    obtain ⟨d, hd, hf⟩ := hsrc
    refine ⟨d, _, ?_, hf⟩
    rw [locals_defaults hd, emitAll_basing, locals_emitAll]
    exact empty

end ClassAsm
