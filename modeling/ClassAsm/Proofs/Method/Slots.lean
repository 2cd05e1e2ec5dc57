import ClassAsm.Proofs.Method.Locals
import ClassAsm.Proofs.Method.Stretches
import ClassAsm.Proofs.Trimming.Scope

/-! The locals and the code of a body. A statement adds pieces to segments and locals behind those
that are there, one for each name that it binds while a slot is free. Where none is free the whole
method fails. -/

namespace ClassAsm

open Draft

/-! Names that no slot is left for. -/

namespace Draft

variable {site : Site} {d : Draft} {name : String} {span : Span} {type : TypeRef}

theorem bind_full (new : d.locals.find? name = none) (full : d.locals.isFull = true) :
    d.bind site name type span = .error (d.stop (Fault.tooManyLocals.at span)) := by
  rw [bind_of_none new, if_pos full]

theorem assignLocal_full {typeName : Option String} {e : Expr} {c : Code}
    (typed : ∀ text, typeName = some text →
      (site.scope d.locals).resolveType text span = .ok c.type)
    (value : (site.scope d.locals).valueCode e = .ok c) (new : d.locals.find? name = none)
    (full : d.locals.isFull = true) :
    d.assignLocal site name span typeName e =
      .error (d.stop (Fault.tooManyLocals.at span)) := by
  have emitted : d.value site e = .ok (c.type, d.emitAll c.instructions) :=
    value_eq_ok.2 ⟨c, value, rfl, rfl⟩
  have bound : (d.emitAll c.instructions).bind site name c.type span =
      .error (d.stop (Fault.tooManyLocals.at span)) := by
    rw [bind_full (by rwa [locals_emitAll]) (by rwa [locals_emitAll]), stop, stop,
      (emitAll_sameFrame _).warnings]
  cases typeName with
  | none => simp [assignLocal, emitted, ok_bind, bound, error_bind]
  | some text =>
    have resolved := typed text rfl
    simp [assignLocal, check, resolved, Except.mapError, Except.map, emitted, ok_bind, bound,
      error_bind]

end Draft

/-- Binding one more name fails where all slots are taken. -/
theorem Site.Binding.stmt_full {site : Site} {d : Draft} {s : Stmt} {name : String} {span : Span}
    {type : TypeRef} (h : site.Binding d.locals s name type span)
    (new : d.locals.find? name = none) (full : d.locals.isFull = true) :
    d.stmt site s = .error (d.stop (Fault.tooManyLocals.at span)) := by
  cases h with
  | declare h =>
    simp [stmt, Draft.declare, check, h, Except.mapError, ok_bind, bind_full new full, error_bind]
  | @assign _ _ _ typeName _ _ field address typed value =>
    rw [stmt]
    cases typeName with
    | none => simp [Draft.assign, new, field rfl new, assignLocal_full typed value new full]
    | some text => simp [Draft.assign, assignLocal_full typed value new full]

namespace Job

/-! What compilation adds. -/

/-- Pieces of code have been added to the segments, and locals that the body binds. -/
structure Written (j : Job) (d d' : Draft) : Prop where
  locals : d.locals.toList <+: d'.locals.toList
  limit : d.locals.size ≤ Locals.limit → d'.locals.size ≤ Locals.limit
  named : ∀ x ∈ d'.locals.toList, x ∈ d.locals.toList ∨ j.Registers x.1 x.2
  code : ∀ i, ∃ names code, j.Woven d'.locals.toList names code ∧
    d'.codeAt i = d.codeAt i ++ code

variable {j : Job} {d d' x : Draft} {t : Task} {s : Stmt} {e : Expr} {c : Code}
  {names : List String} {code : List Instruction}

theorem Visits.leads {t' : Task} (h : j.Visits t d) (hl : Leads j.site (t, d) (t', d')) :
    j.Visits t' d' := by
  obtain ⟨d₀, opened, leads⟩ := h
  exact ⟨d₀, opened, leads.tail hl⟩

theorem Visits.evaluates (h : j.Visits (.one s) d) (hc : (j.site.scope d.locals).code e = .ok c) :
    j.Evaluates d.locals.toList s e ((j.site.scope d.locals).reads e) c :=
  ⟨d, h, List.prefix_refl _, hc, rfl⟩

namespace Written

theorem refl (j : Job) (d : Draft) : j.Written d d :=
  ⟨List.prefix_refl _, id, fun _ => .inl, fun _ => ⟨[], [], .nil, by simp⟩⟩

theorem trans {a b c : Draft} (h : j.Written a b) (h' : j.Written b c) : j.Written a c where
  locals := h.locals.trans h'.locals
  limit hl := h'.limit (h.limit hl)
  named x hx := (h'.named x hx).elim (h.named x) .inr
  code i := by
    obtain ⟨names, code, woven, he⟩ := h.code i
    obtain ⟨names', code', woven', he'⟩ := h'.code i
    exact ⟨_, _, (woven.mono h'.locals).trans woven', by rw [he', he, List.append_assoc]⟩

theorem of_same (hc : ∀ i, d'.codeAt i = d.codeAt i) (hl : d'.locals = d.locals) :
    j.Written d d' := by
  refine ⟨hl ▸ List.prefix_refl _, hl ▸ id, hl ▸ fun _ => .inl, fun i => ⟨[], [], .nil, ?_⟩⟩
  rw [hc, List.append_nil]

theorem of_stretch (hc : ∀ i, d'.codeAt i = d.codeAt i ∨
      ∃ names code, j.Stretch d.locals.toList names code ∧ d'.codeAt i = d.codeAt i ++ code)
    (hl : d'.locals = d.locals) : j.Written d d' := by
  refine ⟨hl ▸ List.prefix_refl _, hl ▸ id, hl ▸ fun _ => .inl, fun i => ?_⟩
  rcases hc i with same | ⟨names, code, stretch, he⟩
  · exact ⟨[], [], .nil, by rw [same, List.append_nil]⟩
  · exact ⟨names, code, hl ▸ stretch.woven, he⟩

theorem emitAll (h : j.Stretch d.locals.toList names code) : j.Written d (d.emitAll code) :=
  of_stretch (fun _ => (codeAt_emitAll_or code).imp_right fun he => ⟨names, code, h, he⟩)
    (locals_emitAll code)

theorem branch {make : String → Instruction}
    (h : ∀ label, j.Stretch d.locals.toList names (code ++ [make label])) (t : Nat) :
    j.Written d ((d.emitAll code).branch make t) :=
  of_stretch (fun _ => (codeAt_branch_or code make).imp_right fun ⟨label, he⟩ =>
    ⟨names, _, h label, he⟩) (by rw [locals_branch, locals_emitAll])

theorem spawnFresh (j : Job) (d : Draft) (stem : String) (muted : Bool) :
    j.Written d (d.spawnFresh stem muted).2 := of_same (fun _ => codeAt_spawnFresh _ _) rfl

theorem switchTo (j : Job) (d : Draft) (t : Nat) : j.Written d (d.switchTo t) :=
  of_same (fun _ => rfl) rfl

theorem always (j : Job) (d : Draft) (t : Nat) : j.Written d (d.branch .br t) :=
  @branch j d [] [] .br .jump t

theorem join (j : Job) (d : Draft) (t : Nat) : j.Written d (d.join t) := by
  unfold Draft.join
  split
  · exact always j d t
  · exact refl j d

theorem admits {span : Span} {b : Bool} (h : Admits j.site span d d' b) : j.Written d d' :=
  of_same h.codeAt h.locals

theorem noted (j : Job) (d : Draft) (e : Expr) : j.Written d (d.noted j.site e) := by
  rcases @noted_eq_or j.site d e with he | he <;> rw [he]
  · exact refl j d
  · exact of_same (fun _ => rfl) rfl

/-- A name is bound where a slot is left for it. -/
theorem binds {name : String} {type : TypeRef} {slot : Nat} (hb : Binds d name type slot d')
    (room : d.locals.find? name = none → d.locals.isFull = false)
    (registers : j.Registers name type) : j.Written d d' := by
  cases hb with
  | known => exact refl j d
  | new h =>
    have behind : (d.locals.add name type h).toList = d.locals.toList ++ [(name, type)] :=
      Locals.toList_add h
    refine ⟨⟨_, behind.symm⟩, fun _ => ?_, fun x hx => ?_, fun i => ⟨[], [], .nil, ?_⟩⟩
    · have free : d.locals.size < Locals.limit := by simpa [Locals.isFull] using room h
      exact (Locals.size_add h).trans_le free
    · rw [addLocal, behind] at hx
      rcases List.mem_append.1 hx with old | new
      · exact .inl old
      · exact .inr (List.mem_singleton.1 new ▸ registers)
    · exact (List.append_nil _).symm

/-- A statement that compiles finds a slot for the name that it binds. -/
theorem of_binding {name : String} {type : TypeRef} {span : Span} {slot : Nat} {d₁ : Draft}
    (hv : j.Visits (.one s) d) (hok : d.stmt j.site s = .ok d₁)
    (h : j.site.Binding d.locals s name type span) (hb : Binds d name type slot d') :
    j.Written d d' := by
  refine binds hb (fun new => ?_) ⟨s, d, span, hv, h⟩
  by_contra full
  rw [h.stmt_full new ((Bool.not_eq_false _).mp full)] at hok
  cases hok

/-- The value of an assignment is stored to a field, through an address, or to a local. -/
theorem assigned {name : String} {nameSpan span : Span} {typeName : Option String}
    (hv : j.Visits (.one (.assign name nameSpan typeName e span)) d)
    (hok : d.assign j.site name nameSpan typeName e = .ok d') : j.Written d d' := by
  have toField {f : Field} {c : Code} (hf : (j.site.scope d.locals).field? name = some f)
      (hn : typeName = none) (hc : (j.site.scope d.locals).valueCode e = .ok c) :
      j.Written d (d.emitAll (storing j.site f c.instructions)) := by
    subst hn
    exact emitAll (.toField (hv.evaluates (Scope.valueCode_eq_ok.1 hc).1) hf)
  cases assign_emits hok with
  | toStatic _ hf hst hc =>
    simpa [storing, hst] using toField hf rfl hc
  | toInstance _ hf hst _ hc =>
    simpa [storing, hst] using toField hf rfl hc
  | through hl ha hc =>
    exact emitAll (.through (hv.evaluates (Scope.valueCode_eq_ok.1 hc).1)
      (Locals.getElem?_toList.2 hl) ha)
  | @toLocal _ slot c d₀ field address typed hc hb =>
    have typed' : ∀ text, typeName = some text →
        (j.site.scope d.locals).resolveType text nameSpan = .ok c.type := by
      intro text he
      obtain ⟨_, resolved⟩ := typed text he
      exact Scope.resolveType_eq_ok.2 (Scope.resolveType_eq_ok.1 resolved)
    have bound : j.Written d d₀ :=
      of_binding hv (by rwa [stmt]) (.assign field address typed' hc) hb
    have value := (hv.evaluates (Scope.valueCode_eq_ok.1 hc).1).mono bound.locals
    exact bound.trans (emitAll (.toLocal value (Locals.getElem?_toList.2 hb.find?)))

theorem test (hv : j.Visits (.one s) x) (hl : d.locals = x.locals) (hm : e ∈ s.tests)
    (hc : (j.site.scope x.locals).valueCode e = .ok c) {make : String → Instruction}
    (hj : Jump make 1) (t : Nat) : j.Written d ((d.emitAll c.instructions).branch make t) :=
  branch (.test hm (hl ▸ hv.evaluates (Scope.valueCode_eq_ok.1 hc).1) hj) t

theorem condition {a : Arm} {segment : Nat} (hv : j.Visits (.one s) x) (hl : d.locals = x.locals)
    (hm : a.condition ∈ s.tests) (h : d.condition j.site a = .ok (segment, d')) :
    j.Written d d' := by
  obtain ⟨c, hc, -, rfl⟩ := condition_eq_ok.1 h
  refine (spawnFresh j d "Cond" false).trans ?_
  exact test (d := (d.spawnFresh "Cond" false).2) hv hl hm (hl ▸ hc) .ifTrue _

theorem run (hr : Draft.Run j.site t d d') (hv : j.Visits t d) : j.Written d d' := by
  induction hr with
  | done | noArms => exact refl j _
  | drop ha => exact admits (Draft.admits ha)
  | next ha hs _ ihs ihr =>
    have first := ihs (hv.leads (.first ha))
    have rest := ihr (hv.leads (.rest ha hs.compile_eq_ok))
    exact ((admits (Draft.admits ha)).trans first).trans rest
  | @expr d _ e he =>
    obtain ⟨-, -, rfl⟩ | ⟨c, hc, rfl⟩ := exprStmt_emits he
    · exact noted j d e
    · have value := hv.evaluates hc
      rw [← locals_noted j.site d e] at value
      exact (noted j d e).trans (emitAll (.drop value))
  | declare hd =>
    obtain ⟨type, slot, ht, hb⟩ := declare_emits hd
    exact of_binding hv (by rwa [stmt]) (.declare ht) hb
  | assign ha => exact assigned hv ha
  | ret hret =>
    obtain ⟨rfl, hvoid, rfl⟩ | ⟨value, c, rfl, hc, ht, rfl⟩ := returnStmt_emits hret
    · exact @emitAll j _ [] [.ret false] (.leave hvoid)
    · have gives : (c.type.cls != j.site.builtins.void) = !j.site.returnsVoid := by
        rw [ht]
        rfl
      rw [emitAll_emit, gives]
      exact emitAll (.give (hv.evaluates hc) ht)
  | @loop d _ _ e body span _ _ hl hb ih =>
    have visited := hv.leads (.body hl)
    obtain ⟨c, hc, rfl, rfl, rfl⟩ := loopStart_eq_ok.1 hl
    have head : j.Written d d.loopHead :=
      (((spawnFresh j d _ _).trans (spawnFresh j _ _ _)).trans (always j _ _)).trans (switchTo j _ _)
    refine (((head.trans ?_).trans (ih visited)).trans (join j _ _)).trans (switchTo j _ _)
    exact test (d := d.loopHead) hv rfl (by simp [Stmt.tests]) hc .ifFalse _
  | @cond d _ _ _ first rest otherwise span _ _ hc ho _ iho iha =>
    have visited := hv.leads (.otherwise hc)
    have armed := hv.leads (.arms hc ho.compile_eq_ok)
    have start := condStart_invariant (P := j.Written d) hc (spawnFresh j d "AfterCond" false)
      fun a ha _ _ _ same hx tested => hx.trans (condition hv same (List.mem_map_of_mem ha) tested)
    exact (((start.trans (iho visited)).trans (join j _ _)).trans (iha armed)).trans
      (switchTo j _ _)
  | @arm d _ _ after segment a xs h _ ih iht =>
    have body := ih (hv.leads .arm)
    have rest := iht (hv.leads (.nextArms h.compile_eq_ok))
    exact (((switchTo j d segment).trans body).trans (join j _ _)).trans rest

/-- Initializers have no locals, and store the defaults of fields. -/
theorem defaults {isStatic : Bool} {fs : List Field} (hl : d.locals = {})
    (h : d.defaults j.site isStatic fs = .ok d') : j.Written d d' := by
  induction fs generalizing d with
  | nil =>
    cases h
    exact refl j _
  | cons f fs ih =>
    by_cases skip : f.default = none ∨ f.isStatic ≠ isStatic
    · rw [defaults_cons_of_other fs skip] at h
      exact ih hl h
    · push Not at skip
      obtain ⟨stored, rfl⟩ := skip
      obtain ⟨value, hv⟩ := Option.ne_none_iff_exists'.1 stored
      obtain ⟨c, hc, -, rest⟩ := (defaults_cons_eq_ok hv).1 h
      rw [hl] at hc
      have stores : j.Written d (d.emitAll (storing j.site f c.instructions)) :=
        emitAll (.default hv (Scope.valueCode_eq_ok.1 hc).1)
      exact stores.trans (ih ((locals_emitAll _).trans hl) rest)

end Written
end Job

/-! Failures. -/

namespace Draft

theorem Leads.compile_error {site : Site} {t t' : Task} {d d' : Draft} {stop : Stop}
    (hl : Leads site (t, d) (t', d')) (h : t'.compile site d' = .error stop) :
    t.compile site d = .error stop := by
  cases hl with
  | first ha =>
    simp only [Task.compile] at h
    simp [Task.compile, stmts, ha, h, error_bind]
  | rest ha hs =>
    simp only [Task.compile] at h
    simp [Task.compile, stmts, ha, hs, ok_bind, h]
  | body hst =>
    simp only [Task.compile] at h
    simp only [Task.compile, stmt_loop, hst, ok_bind, h, error_bind]
  | otherwise hst =>
    simp only [Task.compile] at h
    simp only [Task.compile, stmt_cond, hst, ok_bind, h, error_bind]
  | arms hst ho =>
    have hl := length_condStart hst
    simp only [Task.compile, List.map_fst_zip hl.le, List.map_snd_zip hl.ge] at h
    simp only [Task.compile, stmt_cond, hst, ho, ok_bind, h, error_bind]
  | arm =>
    simp only [Task.compile] at h
    simp only [Task.compile, List.map_cons, Draft.arms, arm_eq, h, error_bind]
  | nextArms hb =>
    simp only [Task.compile] at h
    simp only [Task.compile, List.map_cons, Draft.arms, arm_eq, hb, ok_bind, h]

end Draft

namespace Job

variable {j : Job} {d : Draft} {t : Task} {stop : Stop}

/-- A method fails as the first task in it that fails. -/
theorem Visits.compile_error (hv : j.Visits t d) (h : t.compile j.site d = .error stop) :
    j.compile = .error stop := by
  obtain ⟨d₀, opened, leads⟩ := hv
  have body : d₀.stmts j.site j.stmts = .error stop := by
    change (Task.block j.stmts).compile j.site d₀ = .error stop
    generalize hx : (t, d) = x at leads
    induction leads generalizing t d with
    | refl =>
      cases hx
      exact h
    | @tail y _ _ step ih =>
      subst hx
      exact ih (t := y.1) (d := y.2) (step.compile_error h) rfl
  cases src : j.source with
  | declared decl =>
    have params := (opening_eq_params src).symm.trans opened
    have stmts : d₀.stmts j.site decl.body.stmts = .error stop := by
      simpa [Job.stmts, src] using body
    simp only [compile, Method.compile, source, src, params, stmts, ok_bind, error_bind]
  | initializer isStatic =>
    simp only [Job.stmts, src, Draft.stmts] at body
    cases body

end Job

/-! Parameters. -/

namespace Draft

variable {site : Site} {d d' : Draft}

/-- Copies a number of arguments to the locals from a slot on. -/
def copying (site : Site) (slot n : Nat) : List Instruction :=
  (List.range' slot n).flatMap fun k => [.ldarg (argumentSlot site k), .stloc k]

theorem copying_succ (slot n : Nat) : copying site slot (n + 1) =
    [.ldarg (argumentSlot site slot), .stloc slot] ++ copying site (slot + 1) n := by
  rw [copying, List.range'_succ, List.flatMap_cons]
  rfl

/-- Each argument is copied to a slot of its own, in order. -/
structure Copies (site : Site) (d d' : Draft) (ps : List (Param × TypeRef)) : Prop where
  locals : d'.locals.toList = d.locals.toList ++ ps.map fun p => (p.1.name, p.2)
  limit : d.locals.size ≤ Locals.limit → d'.locals.size ≤ Locals.limit
  code : ∀ i, d'.codeAt i =
    if i = d.current then d.codeAt i ++ copying site d.locals.size ps.length else d.codeAt i

theorem params_copies (hr : d.InRange) {ps : List (Param × TypeRef)}
    (h : d.params site d.locals.size ps = .ok d') : Copies site d d' ps := by
  generalize hn : d.locals.size = n at h
  induction ps generalizing d n with
  | nil =>
    cases h
    exact ⟨by simp, id, fun i => by simp [copying]⟩
  | cons p ps ih =>
    obtain ⟨p, type⟩ := p
    obtain ⟨new, room, rest⟩ := params_cons_eq_ok h
    have behind : (d.addLocal p.name type).locals.toList = d.locals.toList ++ [(p.name, type)] :=
      Locals.toList_add new
    have size : (d.addLocal p.name type).locals.size = n + 1 := hn ▸ Locals.size_add new
    have more := ih (InRange.emitAll (d := d.addLocal p.name type) hr _) (n + 1)
      (by rw [locals_emitAll, size]) rest
    refine ⟨?_, fun _ => ?_, fun i => ?_⟩
    · rw [more.locals, locals_emitAll, behind]
      simp
    · refine more.limit ?_
      rw [locals_emitAll, size, ← hn]
      exact room
    · rw [more.code, current_emitAll, codeAt_emitAll (d := d.addLocal p.name type) hr,
        locals_emitAll, size]
      by_cases hi : i = d.current
      · have here : i = (d.addLocal p.name type).current := hi
        rw [if_pos here, if_pos here, if_pos hi, hn, List.length_cons, copying_succ,
          List.append_assoc]
        rfl
      · have other : ¬ i = (d.addLocal p.name type).current := hi
        rw [if_neg other, if_neg other, if_neg hi]
        rfl

theorem find?_of_distinct {l : Locals} {names : List String} (distinct : (l.names ++ names).Nodup)
    {name : String} (hn : name ∈ names) : l.find? name = none := by
  by_contra old
  exact (List.nodup_append.1 distinct).2.2 _ (Locals.mem_names.2 old) _ hn rfl

theorem params_full {front : List Param} {p : Param} {rest : List Param} {types : List TypeRef}
    {n : Nat} (length : types.length = (front ++ p :: rest).length)
    (distinct : (d.locals.names ++ (front ++ [p]).map (·.name)).Nodup)
    (full : d.locals.size + front.length = Locals.limit) :
    d.params site n ((front ++ p :: rest).zip types) =
      .error ⟨Fault.tooManyLocals.at p.span, d.warnings⟩ := by
  induction front generalizing d n types with
  | nil =>
    obtain _ | ⟨type, types⟩ := types
    · simp at length
    have new := @find?_of_distinct _ _ distinct p.name (by simp)
    have taken : d.locals.isFull = true := by simpa [Locals.isFull] using full.ge
    rw [List.nil_append, List.zip_cons_cons, params_cons_of_new new, if_pos taken, stop]
  | cons q front ih =>
    obtain _ | ⟨type, types⟩ := types
    · simp at length
    have new := @find?_of_distinct _ _ distinct q.name (by simp)
    have room : d.locals.isFull = false := by
      simp only [Locals.isFull, decide_eq_false_iff_not, not_le]
      simp only [List.length_cons] at full
      omega
    have names : (d.addLocal q.name type).locals.names ++ (front ++ [p]).map (·.name) =
        d.locals.names ++ (q :: front ++ [p]).map (·.name) := by
      rw [addLocal, Locals.names, Locals.toList_add new, List.map_append]
      simp [Locals.names]
    have size : (d.addLocal q.name type).locals.size = d.locals.size + 1 := Locals.size_add new
    rw [List.cons_append, List.zip_cons_cons, params_cons_of_new new, room, if_neg Bool.false_ne_true]
    refine (ih (d := (d.addLocal q.name type).emitAll _) (by simpa using length) ?_ ?_).trans ?_
    · rw [locals_emitAll, names]
      exact distinct
    · rw [locals_emitAll, size, ← full, List.length_cons]
      omega
    · rw [(emitAll_sameFrame _).warnings]
      rfl

end Draft

/-- A statement that compiles has bound its name to its type. -/
theorem Site.Binding.find?_of_ok {site : Site} {d d' : Draft} {s : Stmt} {name : String}
    {span : Span} {type : TypeRef} (h : site.Binding d.locals s name type span)
    (hok : d.stmt site s = .ok d') : ∃ slot, d'.locals.find? name = some (slot, type) := by
  cases h with
  | declare resolved =>
    rw [stmt] at hok
    obtain ⟨type', slot, resolved', hb⟩ := declare_emits hok
    obtain rfl : type = type' := Except.ok.inj (resolved.symm.trans resolved')
    exact ⟨slot, hb.find?⟩
  | assign field address typed value =>
    rw [stmt] at hok
    cases assign_emits hok with
    | toStatic hl hf | toInstance hl hf => simp [field rfl hl] at hf
    | through hl ha =>
      rw [address rfl _ _ hl] at ha
      cases ha
    | @toLocal _ slot c _ _ _ _ hc hb =>
      obtain rfl := Except.ok.inj (value.symm.trans hc)
      exact ⟨slot, by rw [locals_emitAll]; exact hb.find?⟩

end ClassAsm
