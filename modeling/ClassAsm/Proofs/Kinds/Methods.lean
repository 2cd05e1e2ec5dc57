import ClassAsm.Proofs.Kinds.Statements
import ClassAsm.Proofs.Program.Bodies

/-! The kinds in whole methods. Arguments are copied into locals of their types, defaults are stored
in fields of theirs, and what closes a segment finds an empty stack. -/

namespace ClassAsm

/-- The arguments of a method have the kinds that the kinding gives them. -/
def Kinding.Takes (κ : Kinding) (site : Site) : Prop := ∀ n p, site.sig.params[n]? = some p →
  ∃ k, site.builtins.stackKind? p.2 = some k ∧ κ.arg? (Draft.argumentSlot site n) = some k

namespace Draft

variable {κ : Kinding} {site : Site} {d d' : Draft}

theorem keepsLocals_params {n : Nat} {ps : List (Param × TypeRef)}
    (h : d.params site n ps = .ok d') : KeepsLocals d d' :=
  params_locals (P := fun l => ∀ n x, d.locals.find? n = some x → l.find? n = some x)
    (fun _ _ _ new kept n x hx => Locals.find?_add_of_some new (kept n x hx)) h fun _ _ hx => hx

namespace Replays

theorem start (κ : Kinding) (labels : Nat) (warnings : Array Warning) :
    (Draft.start labels warnings).Replays κ := by
  intro i
  have empty : (Draft.start labels warnings).codeAt i = [] := by
    cases i <;> rfl
  rw [empty]
  exact .nil κ []

theorem params (h : d.Replays κ) {n : Nat} {ps : List (Param × TypeRef)}
    (takes : ∀ (i : Nat) p, ps[i]? = some p → ∃ k, site.builtins.stackKind? p.2 = some k ∧
      κ.arg? (argumentSlot site (n + i)) = some k)
    (hp : d.params site n ps = .ok d') (covers : κ.Covers site.builtins d'.locals) :
    d'.Replays κ := by
  induction ps generalizing d n with
  | nil =>
    cases hp
    exact h
  | cons p ps ih =>
    obtain ⟨p, type⟩ := p
    obtain ⟨new, -, rest⟩ := params_cons_eq_ok hp
    obtain ⟨k, hk, argument⟩ := takes 0 (p, type) rfl
    -- the slot of the parameter is the same in the end
    have kept : KeepsLocals (d.addLocal p.name type) d' :=
      .trans (.of_eq (locals_emitAll _)) (keepsLocals_params rest)
    obtain ⟨k', hk', slot⟩ :=
      covers p.name d.locals.size type (kept _ _ (Locals.find?_add new))
    obtain rfl : k = k' := Option.some.inj (hk.symm.trans hk')
    have bound : (d.addLocal p.name type).Replays κ := h.of_codeAt fun _ => rfl
    have copied : ((d.addLocal p.name type).emitAll
        [.ldarg (argumentSlot site n), .stloc d.locals.size]).Replays κ :=
      bound.emitAll ((Kinding.Turns.ldarg argument).append (.stloc slot))
    refine ih copied (fun i q hq => ?_) rest
    rw [Nat.add_right_comm]
    exact takes (i + 1) q hq

theorem basing (hκ : κ.Fits site) (h : d.Replays κ) {isStatic : Bool}
    (receiver : isStatic = false → site.sig.takesReceiver = true) :
    (d.emitAll (basing isStatic)).Replays κ := by
  cases isStatic with
  | true => exact h
  | false =>
    have base : κ.Turns [.ldarg 0] [] [.object] := .ldarg (hκ.receiver (receiver rfl))
    exact h.emitAll (base.append (.callBaseCtor κ))

theorem storing (hκ : κ.Fits site) (h : d.Replays κ) {c : Class}
    (hc : site.registry.class? site.owner = some c) {f : Field} (hf : f ∈ c.fields)
    (receiver : f.isStatic = false → site.sig.takesReceiver = true) {code : Code} {k : StackKind}
    (type : code.type = f.type) (hk : site.builtins.stackKind? code.type = some k)
    (turns : κ.Turns code.instructions [] [k]) :
    (d.emitAll (storing site f code.instructions)).Replays κ := by
  obtain ⟨k', hk', field⟩ := hκ.fields c hc f hf
  obtain rfl : k = k' := Option.some.inj ((type ▸ hk).symm.trans hk')
  refine h.emitAll ?_
  unfold Draft.storing
  cases kind : f.isStatic with
  | true =>
    rw [kind] at field
    exact turns.append (.stsfld field)
  | false =>
    rw [kind] at field
    have base : κ.Turns [.ldarg 0] [] [.object] := .ldarg (hκ.receiver (receiver kind))
    exact (turns.on base).append (.stfld field)

theorem defaults (hκ : κ.Fits site) (h : d.Replays κ) {isStatic : Bool} {c : Class}
    (hc : site.registry.class? site.owner = some c) {fs : List Field} (hf : ∀ f ∈ fs, f ∈ c.fields)
    (receiver : isStatic = false → site.sig.takesReceiver = true) (hl : d.locals = {})
    (exact' : (site.scope {}).DefaultsExact)
    (hd : d.defaults site isStatic fs = .ok d') : d'.Replays κ := by
  induction fs generalizing d with
  | nil =>
    cases hd
    exact h
  | cons f fs ih =>
    obtain ⟨here, rest⟩ := List.forall_mem_cons.1 hf
    by_cases other : f.default = none ∨ f.isStatic ≠ isStatic
    · rw [defaults_cons_of_other fs other] at hd
      exact ih h rest hl hd
    simp only [not_or, not_not] at other
    obtain ⟨default, rfl⟩ := other
    obtain ⟨value, default⟩ := Option.ne_none_iff_exists'.1 default
    obtain ⟨code, hcode, type, hd⟩ := (defaults_cons_eq_ok default).1 hd
    rw [hl] at hcode
    have covers : κ.Covers site.builtins {} := by
      intro name slot type hn
      simp [Locals.find?] at hn
    obtain ⟨k, hk, turns⟩ := Scope.valueCode_turns (hκ.shows covers) (fun _ => exact')
      (exact' c hc f here value default) hcode
    exact ih (h.storing hκ hc here receiver type hk turns) rest ((locals_emitAll _).trans hl) hd

theorem finished (hκ : κ.Fits site) (h : d.Replays κ) :
    ∀ s ∈ d.finished site, κ.Turns s.code [] [] := by
  intro s hm
  obtain ⟨i, -, rfl⟩ := List.mem_map.1 hm
  have closing : κ.Turns (d.closing site i) [] [] := by
    unfold Draft.closing
    split
    · exact .nil κ []
    split
    · next void => exact .retVoid (hκ.result_void void)
    · exact .one fun _ => rfl
  exact (h i).append closing

end Replays
end Draft

namespace Job

open Draft

/-- The values that the method uses for their types are exact. -/
structure IsExact (j : Job) : Prop where
  stmts : ∀ s d, j.Visits (.one s) d → (j.site.scope d.locals).StmtExact s ∧
    ((j.site.scope d.locals).hasReceiver = false → (j.site.scope d.locals).DefaultsExact)
  initializer : ∀ isStatic, j.source = .initializer isStatic → (j.site.scope {}).DefaultsExact

/-- No truth value is used for its type, neither in the body nor in a default of a field. -/
def usesNoTruth (j : Job) : Bool :=
  (Stmt.insideEach j.stmts).all Stmt.usesNoTruth &&
    ((j.site.registry.class? j.site.owner).elim [] (·.fields)).all fun f =>
      f.default.all fun e => e.usesNoTruth && !e.isTruth

theorem isExact_of_usesNoTruth {j : Job} (h : j.usesNoTruth = true) : j.IsExact := by
  obtain ⟨body, fields⟩ := Bool.and_eq_true_iff.1 h
  have defaults (l : Locals) : (j.site.scope l).DefaultsExact := by
    intro c (hc : j.site.registry.class? j.site.owner = some c) f hf e he
    simp only [hc, Option.elim_some] at fields
    have default := List.all_eq_true.1 fields f hf
    rw [he] at default
    exact Scope.valueExact_of_usesNoTruth default
  refine ⟨fun s d visited => ⟨?_, fun _ => defaults _⟩, fun _ _ => defaults _⟩
  obtain ⟨d₀, -, leads⟩ := visited
  have inside : ∀ q, Relation.ReflTransGen (Leads j.site) (.block j.stmts, d₀) q →
      q.1.inside ⊆ Stmt.insideEach j.stmts := by
    intro q hq
    induction hq with
    | refl => exact List.Subset.refl _
    | tail _ hl ih => exact List.Subset.trans hl.inside_subset ih
  exact Scope.stmtExact_of_usesNoTruth
    (List.all_eq_true.1 body s (inside _ leads s.mem_inside))

/-- Every segment of a compiled method can be replayed. -/
theorem turns {κ : Kinding} {j : Job} (hκ : κ.Fits j.site) (takes : κ.Takes j.site)
    (exact' : j.IsExact)
    (receiver : j.source = .initializer false → j.site.sig.takesReceiver = true)
    (owner : ∃ c, j.site.registry.class? j.site.owner = some c)
    {m : Method} {labels : Nat} {warnings : Array Warning}
    (h : j.compile = .ok (m, labels, warnings))
    (covers : ∀ l : Locals, l.toList = m.locals → κ.Covers j.site.builtins l)
    {segments : List Segment} (hb : m.body = .segments segments) :
    ∀ s ∈ segments, κ.Turns s.code [] [] := by
  obtain ⟨_, d', hsrc, rfl, -⟩ := Method.compile_eq_ok.1 h
  obtain rfl := MethodBody.segments.inj hb
  have start := Draft.Replays.start κ j.labels j.warnings
  cases src : j.source with
  | declared decl =>
    simp only [src, Draft.source, bind_eq_ok] at hsrc
    obtain ⟨d₀, hp, d, hst, hf⟩ := hsrc
    have fin := Draft.finish_eq_ok hf
    have all : κ.Covers j.site.builtins d.locals :=
      covers _ (congrArg Table.toList fin.locals.symm)
    have run := Draft.run_block _ hst
    have opening : j.opening = .ok d₀ := by simpa [Job.opening, src] using hp
    have stmts : decl.body.stmts = j.stmts := by simp [Job.stmts, src]
    have opened : d₀.Replays κ := by
      refine start.params (fun i p hi => ?_) hp (Draft.covers_of_keeps all run.keepsLocals)
      obtain ⟨hd, ht⟩ := List.getElem?_zip_eq_some.1 hi
      rw [List.getElem?_map] at ht
      obtain ⟨q, hq, same⟩ := Option.map_eq_some_iff.1 ht
      rw [← same, Nat.zero_add]
      exact takes i q hq
    rw [fin.segments]
    refine (opened.run hκ run (fun s x hx => ?_) all).finished hκ
    exact exact'.stmts s x ⟨d₀, opening, stmts ▸ hx⟩
  | initializer isStatic =>
    simp only [src, Draft.source, bind_eq_ok] at hsrc
    obtain ⟨d, hd, hf⟩ := hsrc
    obtain ⟨c, hc⟩ := owner
    rw [(Draft.finish_eq_ok hf).segments]
    have needs : isStatic = false → j.site.sig.takesReceiver = true := by
      rintro rfl
      exact receiver src
    rw [Draft.emitAll_basing] at hd
    exact ((start.basing hκ needs).defaults hκ hc (by simp [hc]) needs (locals_emitAll _)
      (exact'.initializer isStatic src) hd).finished hκ

end Job
end ClassAsm
