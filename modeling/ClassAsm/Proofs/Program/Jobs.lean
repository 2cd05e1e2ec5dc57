import ClassAsm.Proofs.Program.Declared

/-! The methods of a program as jobs. A job is a method with its surroundings, the number of the
next label and the warnings so far; the last two come from the job before it. A program that is
accepted consists of the built-in methods and of what its jobs give, in order: each of its classes is
the declared one with its methods compiled, under the same number. -/

namespace ClassAsm

/-- A declared method and where its code comes from. -/
structure Member where
  method : Method
  site : Site
  source : MethodSource

/-- A member that is compiled after others. -/
structure Job extends Member where
  labels : Nat
  warnings : Array Warning

namespace Job

def compile (j : Job) : Except Stop (Method × Nat × Array Warning) :=
  j.method.compile j.site j.source j.labels j.warnings

/-- The jobs of members, up to the first that fails. -/
def schedule : List Member → Nat → Array Warning → List Job
  | [], _, _ => []
  | m :: rest, labels, warnings =>
    let j : Job := { toMember := m, labels := labels, warnings := warnings }
    j :: match j.compile with
      | .ok (_, labels, warnings) => schedule rest labels warnings
      | .error _ => []

/-- Members that all compile, one after the other, to the given methods. -/
inductive Compiles : List Member → Nat → Array Warning → List Method → Nat → Array Warning → Prop
    where
  | nil {labels : Nat} {warnings : Array Warning} : Compiles [] labels warnings [] labels warnings
  | cons {m : Member} {rest : List Member} {labels labels' labels'' : Nat}
      {warnings warnings' warnings'' : Array Warning} {c : Method} {cs : List Method}
      (h : m.method.compile m.site m.source labels warnings = .ok (c, labels', warnings'))
      (t : Compiles rest labels' warnings' cs labels'' warnings'') :
      Compiles (m :: rest) labels warnings (c :: cs) labels'' warnings''

theorem Compiles.append {ms ms' : List Member} {l l' l'' : Nat} {w w' w'' : Array Warning}
    {cs cs' : List Method} (h : Compiles ms l w cs l' w') (h' : Compiles ms' l' w' cs' l'' w'') :
    Compiles (ms ++ ms') l w (cs ++ cs') l'' w'' := by
  induction h with
  | nil => exact h'
  | cons hc _ ih => exact .cons hc (ih h')

theorem toMember_of_mem_schedule {ms : List Member} {l : Nat} {w : Array Warning} {j : Job}
    (h : j ∈ schedule ms l w) : j.toMember ∈ ms := by
  induction ms generalizing l w with
  | nil => cases h
  | cons m rest ih =>
    rcases List.mem_cons.1 h with rfl | h
    · exact List.mem_cons_self
    · split at h
      · exact List.mem_cons_of_mem _ (ih h)
      · cases h

theorem Compiles.exists_job {ms : List Member} {l l' : Nat} {w w' : Array Warning}
    {cs : List Method} (h : Compiles ms l w cs l' w') {c : Method} (hc : c ∈ cs) :
    ∃ j ∈ schedule ms l w, ∃ l₁ w₁, j.compile = .ok (c, l₁, w₁) := by
  induction h with
  | nil => cases hc
  | @cons m rest l l₁ _ w w₁ _ c' cs h t ih =>
    rcases List.mem_cons.1 hc with rfl | hc
    · exact ⟨{ toMember := m, labels := l, warnings := w }, List.mem_cons_self, l₁, w₁, h⟩
    · obtain ⟨j, hj, hok⟩ := ih hc
      refine ⟨j, List.mem_cons_of_mem _ ?_, hok⟩
      simp only [compile, h]
      exact hj

theorem Compiles.forall₂ {ms : List Member} {l l' : Nat} {w w' : Array Warning}
    {cs : List Method} (h : Compiles ms l w cs l' w') :
    List.Forall₂ (fun m c => ∃ l w l' w', m.method.compile m.site m.source l w = .ok (c, l', w'))
      ms cs := by
  induction h with
  | nil => exact .nil
  | cons hc _ ih => exact .cons ⟨_, _, _, _, hc⟩ ih

end Job

namespace Program

open Job Registry

def methods (p : Program) : List Method := p.registry.classes.toList.flatMap (·.methods)

def Declared.membersOf (d : Declared) (options : Options) (o : Outline) : List Member :=
  (o.cls.methods.zip o.sources).map fun (m, source) =>
    ⟨m, ⟨d.registry, d.builtins, o.id, o.nspace, m.sig, options⟩, source⟩

def Declared.members (d : Declared) (options : Options) : List Member :=
  d.outlines.flatMap (d.membersOf options)

/-- The methods that are compiled for a source, up to the first that fails. -/
def jobs (options : Options) (items : List Item) : List Job :=
  match declare items with
  | .ok d => schedule (d.members options) 0 d.warnings
  | .error _ => []

/-- A member stands in the declarations of its program, under its own signature. -/
structure Declared.Holds (d : Declared) (options : Options) (m : Member) : Prop where
  registry : m.site.registry = d.registry
  builtins : m.site.builtins = d.builtins
  options : m.site.options = options
  sig : m.site.sig = m.method.sig

/-- A member is a method of its class, with its source, and stands where the class does. -/
structure Declared.Sits (d : Declared) (options : Options) (o : Outline) (m : Member) : Prop where
  site : m.site = ⟨d.registry, d.builtins, o.id, o.nspace, m.method.sig, options⟩
  listed : (m.method, m.source) ∈ o.cls.methods.zip o.sources

theorem Declared.sits_of_mem {d : Declared} {options : Options} {o : Outline} {m : Member}
    (h : m ∈ d.membersOf options o) : d.Sits options o m := by
  obtain ⟨⟨_, _⟩, listed, rfl⟩ := List.mem_map.1 h
  exact ⟨rfl, listed⟩

theorem Declared.Sits.holds {d : Declared} {options : Options} {o : Outline} {m : Member}
    (h : d.Sits options o m) : d.Holds options m :=
  ⟨congrArg Site.registry h.site, congrArg Site.builtins h.site, congrArg Site.options h.site,
    congrArg Site.sig h.site⟩

theorem Declared.holds_of_mem {d : Declared} {options : Options} {m : Member}
    (h : m ∈ d.members options) : d.Holds options m := by
  obtain ⟨o, -, member⟩ := List.mem_flatMap.1 h
  exact (sits_of_mem member).holds

theorem exists_outline {options : Options} {items : List Item} {j : Job}
    (h : j ∈ jobs options items) : ∃ d,
    declare items = .ok d ∧ ∃ o ∈ d.outlines, j.toMember ∈ d.membersOf options o := by
  unfold jobs at h
  split at h
  · next d declared =>
    obtain ⟨o, ho, hm⟩ := List.mem_flatMap.1 (toMember_of_mem_schedule h)
    exact ⟨d, declared, o, ho, hm⟩
  · cases h

theorem holds_of_mem_jobs {options : Options} {items : List Item} {j : Job}
    (h : j ∈ jobs options items) :
    ∃ d, declare items = .ok d ∧ d.Holds options j.toMember := by
  obtain ⟨d, declared, o, ho, member⟩ := exists_outline h
  exact ⟨d, declared, (Declared.sits_of_mem member).holds⟩

theorem params_of_mem_jobs {options : Options} {items : List Item} {j : Job}
    (h : j ∈ jobs options items) {decl : MethodDecl} (hd : j.source = .declared decl) :
    j.site.sig.params.map Prod.fst = decl.params.map (·.name) := by
  obtain ⟨d, declared, o, ho, member⟩ := exists_outline h
  have sits := Declared.sits_of_mem member
  have stands := (List.forall₂_iff_zip.1 ((declare_ordered declared).linked o ho)).2 sits.listed
  rw [sits.site]
  exact stands.2 decl hd

theorem installed_of_mem_jobs {options : Options} {items : List Item} {j : Job}
    (h : j ∈ jobs options items) : j.site.registry.Installed j.site.builtins := by
  obtain ⟨d, hd, held⟩ := holds_of_mem_jobs h
  rw [held.registry, held.builtins]
  exact (declare_ordered hd).installed

theorem methods_go (site : Method → Site) {ms : List (Method × MethodSource)}
    {s s' : List Method × Nat × Array Warning} (h : ms.foldlM (methodStep site) s = .ok s') :
    ∃ cs, s'.1 = cs.reverse ++ s.1 ∧
      Compiles (ms.map fun (m, source) => ⟨m, site m, source⟩) s.2.1 s.2.2 cs s'.2.1 s'.2.2 := by
  induction ms generalizing s with
  | nil =>
    obtain rfl := foldlM_nil_eq_ok.1 h
    exact ⟨[], rfl, .nil⟩
  | cons m ms ih =>
    obtain ⟨_, hm, h⟩ := foldlM_cons_eq_ok.1 h
    obtain ⟨⟨c, l, w⟩, hc, hm⟩ := bind_eq_ok.1 hm
    cases hm
    obtain ⟨cs, hs, hcs⟩ := ih h
    exact ⟨c :: cs, by simp [hs], .cons hc hcs⟩

theorem compileClass_eq_ok {d : Declared} {options : Options} {p p' : Progress} {o : Outline}
    (h : d.compileClass options p o = .ok p') :
    ∃ cs, Compiles (d.membersOf options o) p.labels p.warnings cs p'.labels p'.warnings ∧
      p'.program = ⟨p.program.registry.updateClass o.id (·.complete cs),
        p.program.hasMain || o.sources.any MethodSource.isEntryPoint⟩ := by
  obtain ⟨s, hs, h⟩ := bind_eq_ok.1 h
  cases h
  obtain ⟨cs, he, hcs⟩ := methods_go (d.siteIn options o) hs
  rw [List.append_nil] at he
  exact ⟨cs, hcs, by rw [Progress.enter, he, List.reverse_reverse]⟩

/-- The converse of `methods_go`. -/
theorem methods_ok (site : Method → Site) {ms : List (Method × MethodSource)} {labels labels' : Nat}
    {warnings warnings' : Array Warning} {cs : List Method}
    (h : Compiles (ms.map fun (m, source) => ⟨m, site m, source⟩) labels warnings cs labels'
      warnings') (before : List Method) :
    ms.foldlM (methodStep site) (before, labels, warnings) =
      Except.ok (cs.reverse ++ before, labels', warnings') := by
  induction ms generalizing labels warnings cs before with
  | nil =>
    cases h
    rfl
  | cons m ms ih =>
    cases h with
    | @cons _ _ _ labels' _ _ warnings' _ c cs hc rest =>
      refine foldlM_cons_eq_ok.2 ⟨(c :: before, labels', warnings'), ?_, ?_⟩
      · exact bind_eq_ok.2 ⟨_, hc, rfl⟩
      · rw [ih rest, List.reverse_cons, List.append_assoc, List.singleton_append]

theorem compileClass_ok {d : Declared} {o : Options} {p : Progress} {outline : Outline}
    {cs : List Method} {labels : Nat} {warnings : Array Warning}
    (h : Compiles (d.membersOf o outline) p.labels p.warnings cs labels warnings) :
    d.compileClass o p outline = .ok
      ⟨⟨p.program.registry.updateClass outline.id (·.complete cs),
        p.program.hasMain || outline.sources.any MethodSource.isEntryPoint⟩, labels, warnings⟩ := by
  have methods := methods_ok (d.siteIn o outline) h []
  rw [Declared.compileClass, methods, ok_bind, List.append_nil, Progress.enter,
    List.reverse_reverse]

theorem sigs_of_compiles {d : Declared} {options : Options} {o : Outline} {l l' : Nat}
    {w w' : Array Warning} {cs : List Method} (linked : Outline.Linked o)
    (h : Compiles (d.membersOf options o) l w cs l' w') :
    cs.map (·.sig) = o.cls.methods.map (·.sig) := by
  have members : (d.membersOf options o).map (·.method) = o.cls.methods := by
    simp only [Declared.membersOf, List.map_map]
    exact List.map_fst_zip linked.length_eq.le
  have same : (d.membersOf options o).map (·.method.sig) = cs.map (·.sig) :=
    map_eq_of_forall₂ (h.forall₂.imp fun _ _ ⟨_, _, _, _, hc⟩ => (Method.sig_compile hc).1.symm)
  rw [← same, ← members, List.map_map]
  rfl

/-- A class as it is in the finished program: it has other methods, and nothing else about it
changes. -/
structure Declared.Becomes (d : Declared) (options : Options) (o : Outline) (c : Class) : Prop where
  eq : c = { o.cls with methodTable := c.methodTable }
  sigs : c.methods.map (·.sig) = o.cls.methods.map (·.sig)
  methods : List.Forall₂ (fun m c => ∃ l w l' w',
    m.method.compile m.site m.source l w = .ok (c, l', w')) (d.membersOf options o) c.methods

/-- The declared classes of a program after they are compiled. -/
structure Finished (options : Options) (d : Declared) (p : Program) : Prop where
  classes : ∃ cs, p.registry.classes.toList = base.classes.toList ++ cs ∧
    List.Forall₂ (d.Becomes options) d.outlines cs
  compiles : ∃ cs labels warnings, Compiles (d.members options) 0 d.warnings cs labels warnings ∧
    p.methods = base.classes.toList.flatMap (·.methods) ++ cs
  namespaces : p.registry.namespaces = d.registry.namespaces
  agrees : Agrees d.registry p.registry

/-- A program has a `main` if one of its classes has. -/
def entered (os : List Outline) : Bool := os.any (·.sources.any MethodSource.isEntryPoint)

theorem classes_eq_ok {d : Declared} {options : Options} {os : List Outline} {pre : List Class}
    {p p' : Progress} (linked : ∀ o ∈ os, Outline.Linked o)
    (hc : p.program.registry.classes.toList = pre ++ os.map (·.cls))
    (hi : os.map (·.id) = List.range' pre.length os.length)
    (h : os.foldlM (d.compileClass options) p = .ok p') :
    (∃ cs, p'.program.registry.classes.toList = pre ++ cs ∧
      List.Forall₂ (d.Becomes options) os cs ∧
      Compiles (os.flatMap (d.membersOf options)) p.labels p.warnings (cs.flatMap (·.methods))
        p'.labels p'.warnings) ∧
    p'.program.registry.namespaces = p.program.registry.namespaces ∧
    Agrees p.program.registry p'.program.registry ∧
    p'.program.hasMain = (p.program.hasMain || entered os) := by
  induction os generalizing pre p with
  | nil =>
    obtain rfl := foldlM_nil_eq_ok.1 h
    exact ⟨⟨[], by simpa using hc, .nil, .nil⟩, rfl, .refl _, (Bool.or_false _).symm⟩
  | cons o os ih =>
    obtain ⟨here, rest⟩ := List.forall_mem_cons.1 linked
    obtain ⟨p₁, ho, h⟩ := foldlM_cons_eq_ok.1 h
    obtain ⟨ms, hms, made⟩ := compileClass_eq_ok ho
    have hr : p₁.program.registry = p.program.registry.updateClass o.id (·.complete ms) :=
      congrArg Program.registry made
    have sigs := sigs_of_compiles here hms
    have compiled : (o.cls.complete ms).methods = ms := Class.methods_complete sigs
    have becomes : d.Becomes options o (o.cls.complete ms) := by
      refine ⟨o.cls.complete_eq ms, ?_, ?_⟩ <;> rw [compiled]
      · exact sigs
      · exact hms.forall₂
    simp only [List.map_cons, List.length_cons, List.range'_succ, List.cons.injEq] at hi
    have hu := Registry.toList_updateClass hc (·.complete ms)
    rw [← hi.1, ← hr, List.append_cons] at hu
    obtain ⟨⟨cs, hcs, hb, hk⟩, hn, ha, main⟩ := ih rest hu (by simpa using hi.2) h
    have first : Agrees p.program.registry p₁.program.registry := by
      rw [hr]
      refine (Agrees.refl _).updateClass fun c _ => ?_
      rw [c.complete_eq]
      rfl
    refine ⟨⟨o.cls.complete ms :: cs, by simpa using hcs, .cons becomes hb, ?_⟩, ?_,
      fun id => (ha id).trans (first id), ?_⟩
    · rw [List.flatMap_cons, List.flatMap_cons, compiled]
      exact hms.append hk
    · rw [hn, hr]
      rfl
    · rw [main, made]
      exact Bool.or_assoc ..

theorem build_finished {options : Options} {items : List Item} {p : Program} {ws : Array Warning}
    (h : build options items = .ok (p, ws)) :
    ∃ d, declare items = .ok d ∧ Finished options d p := by
  simp only [build_eq, bind_eq_ok, Except.ok.injEq, Prod.mk.injEq] at h
  obtain ⟨d, hd, progress, hp, rfl, -⟩ := h
  have ordered := declare_ordered hd
  obtain ⟨⟨cs, hcs, hb, hk⟩, hn, ha, -⟩ := classes_eq_ok ordered.linked ordered.classes
    (by simpa [size_base] using ordered.ids) hp
  refine ⟨d, hd, ⟨cs, hcs, hb⟩, ⟨_, _, _, hk, ?_⟩, hn, ha⟩
  rw [methods, hcs, List.flatMap_append]

theorem Finished.class_cases {d : Declared} {options : Options} {p : Program}
    (h : Finished options d p) (ho : d.Ordered) {id : Nat} {c : Class}
    (hc : p.registry.class? id = some c) :
    (id < 6 ∧ base.class? id = some c) ∨
      ∃ o ∈ d.outlines, o.id = id ∧ 6 ≤ id ∧ d.Becomes options o c := by
  obtain ⟨cs, hcs, hb⟩ := h.classes
  rw [class?, ← Array.getElem?_toList, hcs] at hc
  by_cases hi : id < 6
  · rw [List.getElem?_append_left (by simpa [size_base] using hi)] at hc
    exact .inl ⟨hi, by rwa [class?, ← Array.getElem?_toList]⟩
  · rw [List.getElem?_append_right (by simpa [size_base] using hi), Array.length_toList,
      size_base] at hc
    obtain ⟨lt, rfl⟩ := List.getElem?_eq_some_iff.1 hc
    have lt' : id - 6 < d.outlines.length := hb.length_eq ▸ lt
    refine .inr ⟨d.outlines[id - 6], List.getElem_mem lt', ?_, not_lt.1 hi, hb.get lt' lt⟩
    have number : (d.outlines.map (·.id))[id - 6]? = some (6 + (id - 6)) := by
      rw [ho.ids, List.getElem?_range' lt', one_mul]
    rw [List.getElem?_map, List.getElem?_eq_getElem lt'] at number
    exact (Option.some.inj number).trans (Nat.add_sub_of_le (not_lt.1 hi))

theorem exists_job {options : Options} {items : List Item} {p : Program} {ws : Array Warning}
    (h : build options items = .ok (p, ws)) {m : Method} (hm : m ∈ p.methods)
    {segments : List Segment} (hb : m.body = .segments segments) :
    ∃ j ∈ jobs options items, ∃ labels warnings, j.compile = .ok (m, labels, warnings) := by
  obtain ⟨d, hd, finished⟩ := build_finished h
  obtain ⟨cs, l, w, hcs, hms⟩ := finished.compiles
  rw [hms] at hm
  rcases List.mem_append.1 hm with hm | hm
  · obtain ⟨c, hc, hm⟩ := List.mem_flatMap.1 hm
    obtain ⟨code, hi⟩ := Registry.inline_base hc hm
    rw [hi] at hb
    cases hb
  · simp only [jobs, hd]
    exact hcs.exists_job hm

end Program
end ClassAsm
