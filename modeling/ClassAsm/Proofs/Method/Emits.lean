import ClassAsm.Method.Compiled
import ClassAsm.Proofs.Method.Run

/-! What a statement without blocks adds to a draft, and how loops, conditions and
initializers begin. Each fact names the code of the expression and the draft that results from
it. -/

namespace ClassAsm

namespace Draft

variable {site : Site} {d d' : Draft}

/-! Meeting a statement emits nothing. -/

theorem Admits.locals {span : Span} {b : Bool} (h : Admits site span d d' b) :
    d'.locals = d.locals := by
  cases h with
  | running | muted | mutedFresh => rfl
  | dropped | kept =>
    split <;> rfl

theorem Admits.codeAt {span : Span} {b : Bool} (h : Admits site span d d' b) (i : Nat) :
    d'.codeAt i = d.codeAt i := by
  have entered (x : Draft) : x.enterUnreachable.codeAt i = x.codeAt i := by
    rw [enterUnreachable_eq]
    exact codeAt_spawnFresh _ _
  cases h with
  | running | muted => rfl
  | mutedFresh => exact entered d
  | dropped => split <;> rfl
  | kept =>
    rw [entered]
    split <;> rfl

/-! Statements without blocks. -/

theorem emitAll_addLocal (c : List Instruction) {name : String} (type : TypeRef)
    (new : (d.emitAll c).locals.find? name = none) :
    (d.emitAll c).addLocal name type =
      (d.addLocal name type (locals_emitAll c ▸ new)).emitAll c := by
  induction c generalizing d with
  | nil => rfl
  | cons x c ih => exact ih new

theorem emitAll_emit (c : List Instruction) (x : Instruction) :
    (d.emitAll c).emit x = d.emitAll (c ++ [x]) := by
  rw [emitAll_append]
  rfl

/-- The slot of a name that is bound, and the draft that knows it. -/
inductive Binds (d : Draft) (name : String) (type : TypeRef) : Nat → Draft → Prop where
  | known {slot : Nat} (h : d.locals.find? name = some (slot, type)) : Binds d name type slot d
  | new (h : d.locals.find? name = none) :
      Binds d name type d.locals.size (d.addLocal name type)

/-- A bound name has the slot and the type that it was bound with. -/
theorem Binds.find? {name : String} {type : TypeRef} {slot : Nat}
    (h : Binds d name type slot d') : d'.locals.find? name = some (slot, type) := by
  cases h with
  | known h => exact h
  | new h => exact Locals.find?_add h

theorem bind_of_some {name : String} {type existing : TypeRef} {span : Span} {slot : Nat}
    (known : d.locals.find? name = some (slot, existing)) : d.bind site name type span =
      if existing = type then .ok (slot, d)
      else .error (d.stop ((Fault.localMismatch name (site.showType existing)
        (site.showType type)).at span)) := by
  unfold bind
  split
  · next found =>
    rw [known] at found
    cases found
    rfl
  · next missing =>
    rw [known] at missing
    cases missing

theorem bind_of_none {name : String} {type : TypeRef} {span : Span}
    (new : d.locals.find? name = none) : d.bind site name type span =
      if d.locals.isFull then .error (d.stop (Fault.tooManyLocals.at span))
      else .ok (d.locals.size, d.addLocal name type) := by
  unfold bind
  split
  · next found =>
    rw [new] at found
    cases found
  · rfl

/-- A parameter with a new name gets the next slot, if there is one, and its argument is copied there. -/
theorem params_cons_of_new {n : Nat} {p : Param} {type : TypeRef} {ps : List (Param × TypeRef)}
    (new : d.locals.find? p.name = none) : d.params site n ((p, type) :: ps) =
      if d.locals.isFull then .error (d.stop (Fault.tooManyLocals.at p.span))
      else ((d.addLocal p.name type).emitAll
        [.ldarg (argumentSlot site n), .stloc d.locals.size]).params site (n + 1) ps := by
  rw [params]
  split
  · next found =>
    rw [new] at found
    cases found
  · rfl

theorem params_cons_of_known {n : Nat} {p : Param} {type : TypeRef} {ps : List (Param × TypeRef)}
    (known : d.locals.find? p.name ≠ none) : d.params site n ((p, type) :: ps) =
      .error (d.stop ((Fault.paramRedeclared p.name).at p.span)) := by
  rw [params]
  split
  · rfl
  · next new => exact absurd new known

theorem params_cons_eq_ok {n : Nat} {p : Param} {type : TypeRef} {ps : List (Param × TypeRef)}
    (h : d.params site n ((p, type) :: ps) = .ok d') :
    ∃ new : d.locals.find? p.name = none, d.locals.size < Locals.limit ∧
      ((d.addLocal p.name type).emitAll
        [.ldarg (argumentSlot site n), .stloc d.locals.size]).params site (n + 1) ps = .ok d' := by
  by_cases new : d.locals.find? p.name = none
  · rw [params_cons_of_new new] at h
    split at h
    · cases h
    · next room => exact ⟨new, by simpa [Locals.isFull] using room, h⟩
  · rw [params_cons_of_known new] at h
    cases h

theorem bind_eq_ok_imp {name : String} {type : TypeRef} {span : Span} {slot : Nat}
    (h : d.bind site name type span = .ok (slot, d')) : Binds d name type slot d' := by
  unfold bind at h
  split at h
  · next k existing hf =>
    split at h
    · next he =>
      cases h
      exact .known (he ▸ hf)
    · cases h
  · next hf =>
    split at h <;> cases h
    exact .new hf

theorem declare_emits {name : String} {span : Span} {typeName : String}
    (h : d.declare site name span typeName = .ok d') :
    ∃ type slot, (site.scope d.locals).resolveType typeName span = .ok type ∧
      Binds d name type slot d' := by
  simp only [declare, bind_eq_ok, check_eq_ok, Prod.exists, Except.ok.injEq] at h
  obtain ⟨type, ht, slot, _, hb, rfl⟩ := h
  exact ⟨type, slot, ht, bind_eq_ok_imp hb⟩

/-- The ways of assigning a value. -/
inductive Assigned (site : Site) (d : Draft) (name : String) (e : Expr) :
    Option String → Draft → Prop where
  | toStatic {f : Field} {c : Code} (hl : d.locals.find? name = none)
      (hf : (site.scope d.locals).field? name = some f) (hs : f.isStatic = true)
      (hc : (site.scope d.locals).valueCode e = .ok c) (ht : c.type = f.type) :
      Assigned site d name e none
        (d.emitAll (c.instructions ++ [.stsfld (site.registry.fieldTarget site.owner f)]))
  | toInstance {f : Field} {c : Code} (hl : d.locals.find? name = none)
      (hf : (site.scope d.locals).field? name = some f) (hs : f.isStatic = false)
      (hr : site.sig.takesReceiver = true)
      (hc : (site.scope d.locals).valueCode e = .ok c) (ht : c.type = f.type) :
      Assigned site d name e none
        (d.emitAll ([.ldarg 0] ++ c.instructions ++
          [.stfld (site.registry.fieldTarget site.owner f)]))
  | through {slot : Nat} {type : TypeRef} {c : Code}
      (hl : d.locals.find? name = some (slot, type)) (ha : type.isAddress = true)
      (hc : (site.scope d.locals).valueCode e = .ok c) (ht : c.type = type.valueType) :
      Assigned site d name e none
        (d.emitAll ([.ldloc slot] ++ c.instructions ++
          [.stind (site.builtins.elementKind type.cls)]))
  | toLocal {typeName : Option String} {slot : Nat} {c : Code} {d₀ : Draft}
      (hn : typeName = none → d.locals.find? name = none →
        (site.scope d.locals).field? name = none)
      (ha : typeName = none → ∀ s t, d.locals.find? name = some (s, t) → t.isAddress = false)
      (hd : ∀ text, typeName = some text → ∃ span,
        (site.scope d.locals).resolveType text span = .ok c.type)
      (hc : (site.scope d.locals).valueCode e = .ok c) (hb : Binds d name c.type slot d₀) :
      Assigned site d name e typeName (d₀.emitAll (c.instructions ++ [.stloc slot]))

theorem assignField_emits {f : Field} {name : String} {span : Span} {e : Expr}
    (hl : d.locals.find? name = none) (hf : (site.scope d.locals).field? name = some f)
    (h : d.assignField site f span e = .ok d') : Assigned site d name e none d' := by
  unfold assignField at h
  split at h
  · cases h
  next hr =>
  simp only [bind_eq_ok, Prod.exists] at h
  obtain ⟨got, d₁, hv, h⟩ := h
  obtain ⟨c, hc, rfl, rfl⟩ := value_eq_ok.1 hv
  split at h
  · cases h
  next ht =>
  cases hs : f.isStatic
  · simp only [hs, Bool.false_eq_true, if_false, Except.ok.injEq] at h hc
    subst h
    have := Assigned.toInstance hl hf hs (by simpa [hs] using hr) hc (not_not.1 ht)
    simpa [emitAll_append] using this
  · simp only [hs, if_true, Except.ok.injEq] at h hc
    subst h
    rw [emitAll_emit]
    exact .toStatic hl hf hs hc (not_not.1 ht)

theorem assignThrough_emits {name : String} {span : Span} {slot : Nat} {type : TypeRef} {e : Expr}
    (hl : d.locals.find? name = some (slot, type)) (ha : type.isAddress = true)
    (h : d.assignThrough site name span slot type e = .ok d') : Assigned site d name e none d' := by
  simp only [assignThrough, bind_eq_ok, Prod.exists] at h
  obtain ⟨got, d₁, hv, h⟩ := h
  obtain ⟨c, hc, rfl, rfl⟩ := value_eq_ok.1 hv
  split at h
  · cases h
  next ht =>
  cases h
  have := Assigned.through hl ha hc (not_not.1 ht)
  simpa [emitAll_append] using this

theorem assignLocal_eq_ok {name : String} {span : Span} {typeName : Option String} {e : Expr}
    (h : d.assignLocal site name span typeName e = .ok d') :
    ∃ c slot d₁, (site.scope d.locals).valueCode e = .ok c ∧
      (∀ text, typeName = some text →
        (site.scope d.locals).resolveType text span = .ok c.type) ∧
      (d.emitAll c.instructions).bind site name c.type span = .ok (slot, d₁) ∧
      d' = d₁.emit (.stloc slot) := by
  unfold assignLocal at h
  cases typeName with
  | none =>
    simp only [ok_bind, bind_eq_ok, Prod.exists] at h
    obtain ⟨got, _, hv, h⟩ := h
    obtain ⟨c, hc, rfl, rfl⟩ := value_eq_ok.1 hv
    simp only [Option.getD_none, ne_eq, not_true_eq_false, if_false, bind_eq_ok, Prod.exists,
      Except.ok.injEq] at h
    obtain ⟨slot, d₁, hb, rfl⟩ := h
    refine ⟨c, slot, d₁, hc, ?_, hb, rfl⟩
    intro _ he
    cases he
  | some text =>
    simp only [bind_eq_ok, map_eq_ok, check_eq_ok, Prod.exists] at h
    obtain ⟨_, ⟨type, hr, rfl⟩, got, _, hv, h⟩ := h
    obtain ⟨c, hc, rfl, rfl⟩ := value_eq_ok.1 hv
    split at h
    · cases h
    next ht =>
    obtain rfl : type = c.type := not_not.1 ht
    simp only [Option.getD_some, bind_eq_ok, Prod.exists, Except.ok.injEq] at h
    obtain ⟨slot, d₁, hb, rfl⟩ := h
    exact ⟨c, slot, d₁, hc, fun _ he => by cases he; exact hr, hb, rfl⟩

theorem assignLocal_emits {name : String} {span : Span} {typeName : Option String} {e : Expr}
    (hn : typeName = none → d.locals.find? name = none →
      (site.scope d.locals).field? name = none)
    (ha : typeName = none → ∀ s t, d.locals.find? name = some (s, t) → t.isAddress = false)
    (h : d.assignLocal site name span typeName e = .ok d') :
    Assigned site d name e typeName d' := by
  obtain ⟨c, slot, d₁, hc, hd, hb, rfl⟩ := assignLocal_eq_ok h
  have hd' : ∀ text, typeName = some text → ∃ span,
      (site.scope d.locals).resolveType text span = .ok c.type := fun text he => ⟨span, hd text he⟩
  cases bind_eq_ok_imp hb with
  | known hk =>
    rw [emitAll_emit]
    exact .toLocal hn ha hd' hc (.known (by rwa [locals_emitAll] at hk))
  | new hk =>
    have next : (d.emitAll c.instructions).locals.size = d.locals.size := by rw [locals_emitAll]
    rw [emitAll_addLocal, emitAll_emit, next]
    exact .toLocal hn ha hd' hc (.new (by rwa [locals_emitAll] at hk))

theorem assign_emits {name : String} {span : Span} {typeName : Option String} {e : Expr}
    (h : d.assign site name span typeName e = .ok d') : Assigned site d name e typeName d' := by
  unfold assign at h
  split at h
  · next hl =>
    split at h
    · next f hf => exact assignField_emits hl hf h
    · next hf => exact assignLocal_emits (fun _ _ => hf) (fun _ s t hs => by simp [hl] at hs) h
  · next slot type hl =>
    split at h
    · next ha => exact assignThrough_emits hl ha h
    · next ha =>
      refine assignLocal_emits (fun _ hn => by simp [hl] at hn) (fun _ s t hs => ?_) h
      rw [hl] at hs
      cases hs
      simpa using ha
  · refine assignLocal_emits (fun hn => ?_) (fun hn => ?_) h
    · cases hn
    · cases hn

/-- The draft in which an expression statement is emitted. -/
def noted (d : Draft) (site : Site) (e : Expr) : Draft :=
  if e.isCall || site.options.muteUselessCode then d else d.warn .uselessCode e.span

theorem noted_eq_or (e : Expr) :
    d.noted site e = d ∨ d.noted site e = d.warn .uselessCode e.span := by
  unfold noted
  split
  · exact .inl rfl
  · exact .inr rfl

theorem exprStmt_eq (d : Draft) (site : Site) (e : Expr) : d.exprStmt site e =
    if !e.isCall && site.options.trimUselessCode then .ok (d.noted site e)
    else (d.noted site e).expr site e >>= fun r =>
      .ok (if r.1.cls = site.builtins.void then r.2 else r.2.emit .pop) := rfl

theorem exprStmt_emits {e : Expr} (h : d.exprStmt site e = .ok d') :
    (e.isCall = false ∧ site.options.trimUselessCode = true ∧ d' = d.noted site e) ∨
      ∃ c, (site.scope d.locals).code e = .ok c ∧
        d' = (d.noted site e).emitAll
          (c.instructions ++ if c.type.cls = site.builtins.void then [] else [.pop]) := by
  have hl : (d.noted site e).locals = d.locals := by
    unfold noted
    split <;> rfl
  rw [exprStmt_eq] at h
  split at h
  · next ht =>
    cases h
    left
    simpa using ht
  · right
    simp only [bind_eq_ok, Prod.exists, Except.ok.injEq] at h
    obtain ⟨t, d₁, he, rfl⟩ := h
    obtain ⟨c, hc, rfl, rfl⟩ := expr_eq_ok.1 he
    rw [hl] at hc
    refine ⟨c, hc, ?_⟩
    split
    · rw [List.append_nil]
    · rw [emitAll_emit]

theorem returnStmt_emits {e : Option Expr} {span : Span} (h : d.returnStmt site e span = .ok d') :
    (e = none ∧ site.returnsVoid = true ∧ d' = d.emit (.ret false)) ∨
      ∃ value c, e = some value ∧ (site.scope d.locals).code value = .ok c ∧
        c.type = site.sig.returnType ∧
        d' = (d.emitAll c.instructions).emit (.ret (c.type.cls != site.builtins.void)) := by
  unfold returnStmt at h
  split at h
  · next value =>
    right
    simp only [bind_eq_ok, Prod.exists] at h
    obtain ⟨t, d₁, he, h⟩ := h
    obtain ⟨c, hc, rfl, rfl⟩ := expr_eq_ok.1 he
    split at h
    · cases h
    next ht =>
    cases h
    exact ⟨value, c, rfl, hc, not_not.1 ht, rfl⟩
  · left
    split at h <;> cases h
    next hv => exact ⟨rfl, hv, rfl⟩

theorem condition_eq_ok {a : Arm} {segment : Nat} :
    d.condition site a = .ok (segment, d') ↔
      ∃ c, (site.scope d.locals).valueCode a.condition = .ok c ∧ segment = d.segments.size ∧
        d' = ((d.spawnFresh "Cond" false).2.emitAll c.instructions).branch .brtrue
          d.segments.size := by
  simp only [condition, bind_eq_ok, Prod.exists, value_eq_ok, Except.ok.injEq, Prod.mk.injEq]
  constructor
  · rintro ⟨_, _, ⟨c, hc, -, rfl⟩, rfl, rfl⟩
    exact ⟨c, hc, rfl, rfl⟩
  · rintro ⟨c, hc, rfl, rfl⟩
    exact ⟨_, _, ⟨c, hc, rfl, rfl⟩, rfl, rfl⟩

/-- The segments of a loop are added, one for its condition and one after it. -/
def loopSegments (d : Draft) : Draft :=
  ((d.spawnFresh "Cond" false).2.spawnFresh "AfterCond" false).2

/-- The draft in which the condition of a loop is emitted. -/
def loopHead (d : Draft) : Draft :=
  (d.loopSegments.branch .br d.segments.size).switchTo d.segments.size

theorem loopStart_eq_ok {c : Expr} {cond after : Nat} :
    d.loopStart site c = .ok (cond, after, d') ↔
      ∃ code, (site.scope d.locals).valueCode c = .ok code ∧ cond = d.segments.size ∧
        after = d.segments.size + 1 ∧
        d' = (d.loopHead.emitAll code.instructions).branch .brfalse (d.segments.size + 1) := by
  have hl : d.loopHead.locals = d.locals := rfl
  have ha : ((d.spawnFresh "Cond" false).2.spawnFresh "AfterCond" false).1 =
      d.segments.size + 1 := by simp
  simp only [loopStart, bind_eq_ok, Prod.exists, value_eq_ok, Except.ok.injEq, Prod.mk.injEq]
  constructor
  · rintro ⟨_, _, ⟨code, hc, -, rfl⟩, rfl, rfl, rfl⟩
    exact ⟨code, hc, rfl, ha, by rw [← ha]; rfl⟩
  · rintro ⟨code, hc, rfl, rfl, rfl⟩
    exact ⟨_, _, ⟨code, hc, rfl, rfl⟩, rfl, ha, by rw [← ha]; rfl⟩

/-! Initializers. -/

/-- An initializer of an object calls that of the base class first. -/
def basing (isStatic : Bool) : List Instruction :=
  if isStatic then [] else [.ldarg 0, .callBaseCtor]

theorem emitAll_basing (d : Draft) (isStatic : Bool) :
    (if isStatic then d else (d.emit (.ldarg 0)).emit .callBaseCtor) =
      d.emitAll (basing isStatic) := by
  cases isStatic <;> rfl

/-- The code that stores a default, given the code of its value. -/
def storing (site : Site) (f : Field) (code : List Instruction) : List Instruction :=
  if f.isStatic then code ++ [.stsfld (site.registry.fieldTarget site.owner f)]
  else [.ldarg 0] ++ code ++ [.stfld (site.registry.fieldTarget site.owner f)]

theorem defaults_cons_of_other {isStatic : Bool} {f : Field} (fs : List Field)
    (h : f.default = none ∨ f.isStatic ≠ isStatic) :
    d.defaults site isStatic (f :: fs) = d.defaults site isStatic fs := by
  rw [Draft.defaults]
  cases hd : f.default with
  | none => rfl
  | some value =>
    have other : (f.isStatic != isStatic) = true := bne_iff_ne.2 (h.resolve_left (by simp [hd]))
    simp only [other, if_true]

theorem defaults_cons_eq_ok {f : Field} {fs : List Field} {value : Expr}
    (h : f.default = some value) :
    d.defaults site f.isStatic (f :: fs) = .ok d' ↔
      ∃ c, (site.scope d.locals).valueCode value = .ok c ∧ c.type = f.type ∧
        (d.emitAll (storing site f c.instructions)).defaults site f.isStatic fs = .ok d' := by
  rw [Draft.defaults, h]
  simp only [bne_self_eq_false, Bool.false_eq_true, if_false, bind_eq_ok, Prod.exists, value_eq_ok,
    storing]
  cases f.isStatic <;> constructor
  case true.mp | false.mp =>
    rintro ⟨_, _, ⟨c, hc, rfl, rfl⟩, h⟩
    split at h
    · cases h
    next type => exact ⟨c, hc, not_not.1 type, by simpa [emitAll_append] using h⟩
  case true.mpr | false.mpr =>
    rintro ⟨c, hc, type, h⟩
    refine ⟨_, _, ⟨c, hc, rfl, rfl⟩, ?_⟩
    rw [if_neg (not_not.2 type)]
    simpa [emitAll_append] using h

end Draft

/-! Whole methods. -/

/-- A method with the segments and locals of a finished draft. -/
def Method.compiled (m : Method) (source : MethodSource) (segments : List Segment) (d : Draft) :
    Method :=
  { m with
    body := .segments segments
    locals := d.locals.toList
    maxStack := d.peak
    isEntryPoint := source.isEntryPoint }

theorem Method.compile_eq_ok {m c : Method} {site : Site} {source : MethodSource}
    {labels labels' : Nat} {warnings warnings' : Array Warning} :
    m.compile site source labels warnings = .ok (c, labels', warnings') ↔
      ∃ segments d, (Draft.start labels warnings).source site source = .ok (segments, d) ∧
        m.compiled source segments d = c ∧ d.labels = labels' ∧ d.warnings = warnings' := by
  simp only [compile, bind_eq_ok, Prod.exists, Except.ok.injEq, Prod.mk.injEq, compiled]

variable {m c : Method} {site : Site} {source : MethodSource} {labels labels' : Nat}
  {warnings warnings' : Array Warning}

theorem Method.sig_compile
    (h : m.compile site source labels warnings = .ok (c, labels', warnings')) :
    c.sig = m.sig ∧ ∃ segments, c.body = .segments segments := by
  obtain ⟨segments, _, -, rfl, -⟩ := compile_eq_ok.1 h
  exact ⟨rfl, segments, rfl⟩

theorem Method.isEntryPoint_compile
    (h : m.compile site source labels warnings = .ok (c, labels', warnings')) :
    c.isEntryPoint = source.isEntryPoint := by
  obtain ⟨_, _, -, rfl, -⟩ := compile_eq_ok.1 h
  rfl

end ClassAsm
