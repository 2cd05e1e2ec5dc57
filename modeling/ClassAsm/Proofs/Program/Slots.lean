import ClassAsm.Proofs.Bounds.Classes
import ClassAsm.Proofs.Method.Slots
import ClassAsm.Proofs.Flow.Unreachable

/-! The slots of a compiled method. Its locals are its parameters and then what its body binds, and
each name has a slot for itself, which all code for the name uses. There are as many slots as sixteen
bits can number, and a method that needs one more is refused. -/

namespace ClassAsm

open Draft

namespace Job

/-- The parameters of a method, with their types. An initializer has none. -/
def parameters (j : Job) : List (String × TypeRef) :=
  match j.source with
  | .declared _ => j.site.sig.params
  | .initializer _ => []

/-- The arguments are copied to the locals before anything else. -/
def prologue (j : Job) : List Instruction := copying j.site 0 j.parameters.length

/-- Code that is made of pieces uses the slots of the locals in them, in order. A slot holds values
of its type only: the value of an expression of that type comes right before it is stored. -/
structure Lays (j : Job) (locals : List (String × TypeRef)) (names : List String)
    (code : List Instruction) : Prop where
  woven : j.Woven locals names code
  slots : Slotted locals names code
  stores : ∀ before slot after, code = before ++ .stloc slot :: after → ∃ s e names' c name,
    j.Evaluates locals s e names' c ∧ c.instructions <:+ before ∧
      locals[slot]? = some (name, c.type)

/-- The locals of a compiled method, and the code that uses them. -/
structure Slots (j : Job) (m : Method) : Prop where
  distinct : (m.locals.map Prod.fst).Nodup
  apart : ∀ name name' slot slot', HasSlot m.locals name slot → HasSlot m.locals name' slot' →
    (name = name' ↔ slot = slot')
  params : j.parameters <+: m.locals
  /-- The types of the parameters are those that they are declared with. -/
  resolved : ∀ decl, j.source = .declared decl → List.Forall₂ (fun p x => x.1 = p.name ∧
    j.site.registry.resolve? (TypeName.parse p.typeName) j.site.nspace = some x.2)
    decl.params j.parameters
  named : ∀ x, x ∈ m.locals ↔ x ∈ j.parameters ∨ j.Registers x.1 x.2
  limit : m.locals.length ≤ Locals.limit
  /-- No more names than that are bound. -/
  count : ∀ names : List String, names.Nodup →
    (∀ name ∈ names, ∃ type, (name, type) ∈ j.parameters ∨ j.Registers name type) →
    names.length ≤ Locals.limit
  copied : Slotted m.locals (j.parameters.map Prod.fst) j.prologue
  code : ∃ first rest, m.body = .segments (first :: rest) ∧
    (∃ names body, first.code = j.prologue ++ body ∧ j.Lays m.locals names body) ∧
    ∀ s ∈ rest, ∃ names, j.Lays m.locals names s.code
  below : ∀ s ∈ m.segments, ∀ i ∈ s.code, ∀ slot, i.slot? = some slot → slot < m.locals.length

def IsFullAt (j : Job) (span : Span) : Prop :=
  ∃ stop, j.compile = .error stop ∧ stop.failure = Fault.tooManyLocals.at span ∧
    stop.failure.code = .unknown

/-- A name that comes when all slots are taken is refused, a parameter or one that the body binds. -/
structure Overflows (j : Job) : Prop where
  params : ∀ decl front p rest, j.source = .declared decl → decl.params = front ++ p :: rest →
    ((front ++ [p]).map (·.name)).Nodup → front.length = Locals.limit → j.IsFullAt p.span
  body : ∀ s x name type span, j.Visits (.one s) x → j.site.Binding x.locals s name type span →
    x.locals.find? name = none → x.locals.size = Locals.limit → j.IsFullAt span

variable {j : Job} {d d₀ : Draft} {m : Method} {labels : Nat} {warnings : Array Warning}

theorem lays {locals : List (String × TypeRef)} {names : List String} {code : List Instruction}
    (hs : j.site.registry.Installed j.site.builtins) (h : j.Woven locals names code) :
    j.Lays locals names code :=
  ⟨h, h.slotted hs, fun _ _ _ he => h.stores hs he⟩

/-! The start of the body. -/

def IsLinked (j : Job) : Prop :=
  ∀ decl, j.source = .declared decl → j.site.sig.params.map Prod.fst = decl.params.map (·.name)

theorem codeAt_start (labels : Nat) (warnings : Array Warning) (i : Nat) :
    (start labels warnings).codeAt i = [] := by
  cases i <;> rfl

theorem zip_params {decl : MethodDecl} {params : List (String × TypeRef)}
    (same : params.map Prod.fst = decl.params.map (·.name)) :
    (decl.params.zip (params.map (·.2))).map (fun p => (p.1.name, p.2)) = params := by
  calc (decl.params.zip (params.map (·.2))).map (fun p => (p.1.name, p.2))
      = (decl.params.map (·.name)).zip (params.map (·.2)) := by rw [List.zip_map_left]; rfl
    _ = (params.map Prod.fst).zip (params.map Prod.snd) := by rw [same]
    _ = params := (List.zip_of_prod rfl rfl).symm

/-- The body starts with the parameters in their slots. -/
structure Opens (j : Job) (d : Draft) : Prop where
  locals : d.locals.toList = j.parameters
  limit : d.locals.size ≤ Locals.limit
  code : ∀ i, d.codeAt i = if i = 0 then j.prologue else []

theorem opens (linked : j.IsLinked) (h : j.opening = .ok d₀) : j.Opens d₀ := by
  cases src : j.source with
  | declared decl =>
    have same := linked decl src
    have params := (opening_eq_params src).symm.trans h
    have copies := params_copies (inRange_start _ _) params
    have length : (decl.params.zip (j.site.sig.params.map (·.2))).length = j.parameters.length := by
      have := congrArg List.length same
      simp only [List.length_map] at this
      simp [parameters, src, this]
    refine ⟨?_, copies.limit (Nat.zero_le _), fun i => ?_⟩
    · rw [copies.locals, zip_params same, parameters, src]
      rfl
    · rw [copies.code, codeAt_start, length]
      rfl
  | initializer isStatic =>
    have none : start j.labels j.warnings = d₀ := by simpa [opening, src] using h
    subst none
    have empty : j.parameters = [] := by rw [parameters, src]
    refine ⟨empty ▸ rfl, Nat.zero_le _, fun i => ?_⟩
    rw [codeAt_start, prologue, empty]
    split <;> rfl

theorem exists_written (hs : j.site.registry.Installed j.site.builtins)
    (h : j.compile = .ok (m, labels, warnings)) : ∃ d₀ d, j.opening = .ok d₀ ∧ d.InRange ∧
      j.Written d₀ d ∧ m.body = .segments (d.finished j.site) ∧ m.locals = d.locals.toList := by
  simp only [compile, Method.compile, bind_eq_ok, Prod.exists, Except.ok.injEq, Prod.mk.injEq] at h
  obtain ⟨segments, d', hsrc, rfl, -⟩ := h
  have hr := inRange_start j.labels j.warnings
  have ho := fallsThrough_start j.labels j.warnings
  have ends {d : Draft} {span : Span} (hf : d.finish j.site span = .ok (segments, d')) :
      MethodBody.segments segments = .segments (d.finished j.site) ∧
        d'.locals.toList = d.locals.toList :=
    ⟨congrArg _ (finish_eq_ok hf).segments, congrArg _ (finish_eq_ok hf).locals⟩
  cases src : j.source with
  | declared decl =>
    simp only [src, Draft.source, bind_eq_ok] at hsrc
    obtain ⟨d₀, hp, d, hb, hf⟩ := hsrc
    have opened := (opening_eq_params src).trans hp
    have run := run_block _ hb
    have inRange := (params_step False hr ho hp).1.inRange
    have step : Step j.site False d₀ d := run_done hs run inRange trivial False.elim
    have visited : j.Visits (.block decl.body.stmts) d₀ :=
      ⟨d₀, opened, by rw [stmts, src]⟩
    exact ⟨d₀, d, opened, step.inRange, .run run visited, ends hf⟩
  | initializer isStatic =>
    simp only [src, Draft.source, bind_eq_ok, emitAll_basing] at hsrc
    obtain ⟨d, hd, hf⟩ := hsrc
    have opened : j.opening = .ok (start j.labels j.warnings) := by simp [opening, src]
    have base : j.Written (start j.labels j.warnings)
        ((start j.labels j.warnings).emitAll (basing isStatic)) := by
      cases isStatic with
      | true => exact .refl j _
      | false => exact .emitAll .base
    have straight : Straight (basing isStatic) := by
      cases isStatic with
      | true => exact Straight.nil
      | false => exact (Straight.one (i := .ldarg 0) rfl).append (Straight.one rfl)
    have step : Step j.site False _ d :=
      defaults_step hs (hr.emitAll _) (fallsThrough_emitAll hr straight ho) hd
    exact ⟨_, d, opened, step.inRange, base.trans (.defaults (locals_emitAll _) hd), ends hf⟩

theorem locals_eq_nil_of_initializer (hs : j.site.registry.Installed j.site.builtins)
    (linked : j.IsLinked) {isStatic : Bool} (src : j.source = .initializer isStatic)
    (h : j.compile = .ok (m, labels, warnings)) : m.locals = [] := by
  obtain ⟨d₀, d, opened, -, written, -, locals⟩ := exists_written hs h
  have none : j.parameters = [] := by rw [parameters, src]
  refine List.eq_nil_iff_forall_not_mem.2 fun y hy => ?_
  rcases written.named y (locals ▸ hy) with old | ⟨s, x, span, ⟨d₁, -, leads⟩, -⟩
  · rw [(opens linked opened).locals, none] at old
    cases old
  · rw [stmts, src] at leads
    rcases leads.cases_head with same | ⟨_, step, -⟩
    · cases same
    · cases step

/-! Compiled methods. -/

theorem woven_closing (j : Job) (d : Draft) (locals : List (String × TypeRef)) (i : Nat) :
    j.Woven locals [] (d.closing j.site i) := by
  unfold closing
  split
  · exact .nil
  split
  · next hv => exact (Stretch.leave hv).woven
  · exact (Stretch.jump _).woven

theorem Written.closed (h : j.Written d₀ d) (i : Nat) : ∃ names code,
    j.Woven d.locals.toList names code ∧ (d.closed j.site i).code = d₀.codeAt i ++ code := by
  obtain ⟨names, code, woven, he⟩ := h.code i
  refine ⟨_, _, woven.trans (woven_closing j d _ i), ?_⟩
  rw [Draft.closed, he, List.append_assoc]

theorem slotted_copying (site : Site) (front params more : List (String × TypeRef)) :
    Slotted (front ++ params ++ more) (params.map Prod.fst)
      (copying site front.length params.length) := by
  induction params generalizing front with
  | nil => exact .nil
  | cons x params ih =>
    rw [List.length_cons, copying_succ]
    have here : HasSlot (front ++ x :: params ++ more) x.1 front.length := ⟨x.2, by simp⟩
    have first : Slotted (front ++ x :: params ++ more) [x.1]
        [.ldarg (argumentSlot site front.length), .stloc front.length] := .cons here .nil
    have rest := ih (front ++ [x])
    rw [List.length_append, List.length_singleton, ← List.append_cons] at rest
    exact first.append rest

theorem Registers.mem (hs : j.site.registry.Installed j.site.builtins)
    (h : j.compile = .ok (m, labels, warnings)) {name : String} {type : TypeRef}
    (registers : j.Registers name type) : (name, type) ∈ m.locals := by
  obtain ⟨d, hd⟩ := Job.gives False hs False.elim h
  obtain ⟨s, x, span, visits, binding⟩ := registers
  obtain ⟨y, compiled, grows⟩ := (hd.visited hs visits).compiles
  obtain ⟨slot, found⟩ := binding.find?_of_ok compiled
  rw [hd.locals]
  exact List.mem_of_getElem? (Locals.getElem?_toList.2 (grows.locals name _ found))

theorem apart_of_locals (l : Locals) {name name' : String} {slot slot' : Nat}
    (h : HasSlot l.toList name slot) (h' : HasSlot l.toList name' slot') :
    name = name' ↔ slot = slot' := by
  obtain ⟨_, found⟩ := h
  obtain ⟨_, found'⟩ := h'
  constructor
  · rintro rfl
    have same := (Locals.getElem?_toList.1 found).symm.trans (Locals.getElem?_toList.1 found')
    exact congrArg Prod.fst (Option.some.inj same)
  · rintro rfl
    exact congrArg Prod.fst (Option.some.inj (found.symm.trans found'))

theorem slots (hs : j.site.registry.Installed j.site.builtins) (linked : j.IsLinked)
    (resolved : ∀ decl, j.source = .declared decl → List.Forall₂ (fun p x => x.1 = p.name ∧
      j.site.registry.resolve? (TypeName.parse p.typeName) j.site.nspace = some x.2)
      decl.params j.parameters)
    (h : j.compile = .ok (m, labels, warnings)) : j.Slots m := by
  obtain ⟨d₀, d, opened, hr, written, body, locals⟩ := exists_written hs h
  have opens := opens linked opened
  have params : j.parameters <+: m.locals := by
    rw [locals, ← opens.locals]
    exact written.locals
  have named : ∀ x, x ∈ m.locals ↔ x ∈ j.parameters ∨ j.Registers x.1 x.2 := by
    refine fun x => ⟨fun hx => ?_, fun hx => hx.elim (params.subset ·) (Registers.mem hs h)⟩
    rw [locals] at hx
    exact opens.locals ▸ written.named x hx
  have limit : d.locals.size ≤ Locals.limit := written.limit opens.limit
  have copied : Slotted m.locals (j.parameters.map Prod.fst) j.prologue := by
    obtain ⟨more, he⟩ := params
    exact he ▸ slotted_copying j.site [] j.parameters more
  obtain ⟨rest, hk⟩ := kept_eq_cons hr
  have fresh : 0 ∉ rest := by
    have nodup : d.kept.Nodup := List.nodup_range.filter _
    rw [hk] at nodup
    exact (List.nodup_cons.1 nodup).1
  have segments : m.body = .segments (d.closed j.site 0 :: rest.map (d.closed j.site)) := by
    rw [body, finished, hk, List.map_cons]
  have first : ∃ names code, (d.closed j.site 0).code = j.prologue ++ code ∧
      j.Lays m.locals names code := by
    obtain ⟨names, code, woven, he⟩ := written.closed 0
    exact ⟨names, code, by rw [he, opens.code, if_pos rfl], locals ▸ lays hs woven⟩
  have others : ∀ s ∈ rest.map (d.closed j.site), ∃ names, j.Lays m.locals names s.code := by
    intro s hm
    obtain ⟨i, hi, rfl⟩ := List.mem_map.1 hm
    obtain ⟨names, code, woven, he⟩ := written.closed i
    have later : i ≠ 0 := fun zero => fresh (zero ▸ hi)
    rw [opens.code, if_neg later, List.nil_append] at he
    exact ⟨names, locals ▸ he ▸ lays hs woven⟩
  refine
    { distinct := locals ▸ d.locals.nodup_names
      apart := fun _ _ _ _ => by rw [locals]; exact apart_of_locals d.locals
      params := params
      resolved := resolved
      named := named
      limit := ?_
      count := fun names nodup bound => ?_
      copied := copied
      code := ⟨_, _, segments, first, others⟩
      below := fun s hm i hi slot hslot => ?_ }
  · rw [locals, ← Locals.length_names, Locals.names, List.length_map] at *
    exact limit
  · refine (nodup.subperm fun name hn => ?_).length_le.trans (Locals.length_names.trans_le limit)
    obtain ⟨type, hb⟩ := bound name hn
    have mem := (named (name, type)).2 hb
    rw [locals] at mem
    exact List.mem_map_of_mem mem
  · rw [Method.segments, segments] at hm
    rcases List.mem_cons.1 hm with rfl | hm
    · obtain ⟨names, code, he, lays⟩ := first
      rw [he] at hi
      rcases List.mem_append.1 hi with hi | hi
      · exact copied.lt_length hi hslot
      · exact lays.slots.lt_length hi hslot
    · obtain ⟨names, lays⟩ := others s hm
      exact lays.slots.lt_length hi hslot

/-! Methods that are refused. -/

theorem overflows (linked : j.IsLinked) : j.Overflows where
  params decl front p rest source list distinct full := by
    have length : (j.site.sig.params.map (·.2)).length = (front ++ p :: rest).length := by
      have := congrArg List.length (linked decl source)
      simpa [list] using this
    have refused : (start j.labels j.warnings).params j.site 0
        (decl.params.zip (j.site.sig.params.map (·.2))) =
          .error ⟨Fault.tooManyLocals.at p.span, j.warnings⟩ := by
      rw [list]
      refine params_full length distinct ?_
      change 0 + front.length = Locals.limit
      rw [full, Nat.zero_add]
    refine ⟨⟨Fault.tooManyLocals.at p.span, j.warnings⟩, ?_, rfl, rfl⟩
    simp only [compile, Method.compile, Draft.source, source, refused, error_bind]
  body s x name type span visits binding new full := by
    have taken : x.locals.isFull = true := by simpa [Locals.isFull] using full.ge
    exact ⟨_, visits.compile_error (t := .one s) (binding.stmt_full new taken), rfl, rfl⟩

end Job

namespace Program

variable {options : Options} {items : List Item}

theorem resolve?_members (os : List Outline) (r : Registry) (name : TypeName) (ns : Nat) :
    (os.foldl (fun r o => r.updateClass o.id fun _ => o.cls) r).resolve? name ns =
      r.resolve? name ns := by
  induction os generalizing r with
  | nil => rfl
  | cons o os ih => exact ih _

theorem resolved_params {j : Job} (h : j ∈ jobs options items) {decl : MethodDecl}
    (hd : j.source = .declared decl) : List.Forall₂ (fun p x => x.1 = p.name ∧
      j.site.registry.resolve? (TypeName.parse p.typeName) j.site.nspace = some x.2)
      decl.params j.site.sig.params := by
  obtain ⟨d, declared, o, ho, member⟩ := exists_outline h
  obtain ⟨p, arises⟩ := declare_arises declared
  obtain ⟨q, hq, _, _, made⟩ := exists_of_mem_forall₂ arises.outlines ho
  have shell := (Placement.Ordered.start.addAll arises.placed).shell q hq
  have types : List.Forall₂ (fun m source => ∀ decl, source = MethodSource.declared decl →
      List.Forall₂ (fun p x => x.1 = p.name ∧ d.registry.resolve? (TypeName.parse p.typeName)
        q.nspace = some x.2) decl.params m.sig.params) o.cls.methods o.sources := by
    refine Outline.forall₂_ofPlaced (fun signed decl same => ?_) (fun _ _ => nofun) shell made
    cases same
    simp only [Outline.signature, bind_eq_ok, Except.ok.injEq] at signed
    obtain ⟨_, -, params, hp, rfl⟩ := signed
    refine (forall₂_of_mapM hp).imp fun p x typed => ?_
    obtain ⟨type, resolved, he⟩ := bind_eq_ok.1 typed
    cases he
    rw [arises.registry, resolve?_members]
    exact ⟨rfl, Outline.resolve_eq_ok.1 resolved⟩
  have sits := Declared.sits_of_mem member
  rw [sits.site]
  have same : o.nspace = q.nspace := Outline.nspace_ofPlaced made
  rw [same]
  exact (List.forall₂_iff_zip.1 types).2 sits.listed decl hd

/-- In a compiled method every name has a slot of its own, parameters first, and all code for the
name uses that slot, with values of its type. A method that needs more slots than there are does not
compile. -/
theorem slots_of_mem_jobs {j : Job} (hj : j ∈ jobs options items) :
    (∀ m labels warnings, j.compile = .ok (m, labels, warnings) → j.Slots m) ∧ j.Overflows := by
  have linked : j.IsLinked := fun decl hd => params_of_mem_jobs hj hd
  refine ⟨fun m labels warnings h => ?_, Job.overflows linked⟩
  refine Job.slots (installed_of_mem_jobs hj) linked (fun decl hd => ?_) h
  have params := resolved_params hj hd
  rwa [Job.parameters, hd]

theorem slots_of_mem_jobs_meter : ∃ j ∈ jobs {} meter, ∃ m labels warnings,
    j.compile = .ok (m, labels, warnings) ∧ j.Slots m := by
  obtain ⟨j, mem, m, labels, warnings, h⟩ := exists_job_meter
  exact ⟨j, mem, m, labels, warnings, h, (slots_of_mem_jobs mem).1 m labels warnings h⟩

end Program
end ClassAsm
