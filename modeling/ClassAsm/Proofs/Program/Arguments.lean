import ClassAsm.Proofs.Assembly.Declarations
import ClassAsm.Proofs.Kinds.Programs
import ClassAsm.Proofs.Program.Origins

/-! The arguments of a compiled method. Each parameter is copied from an argument of its own before
anything else, in order and behind the receiver, and after that only the receiver is loaded. Arguments
are numbered in sixteen bits without a check: a receiver and as many parameters as there are slots are
one argument too many, and then the last two parameters are copied from one. -/

namespace ClassAsm

open Draft

/-- Copies the argument of each parameter, in order. -/
def copies (argument : Nat → Nat) (n : Nat) : List Instruction :=
  (List.range n).flatMap fun k => [.ldarg (argument k), .stloc k]

/-- The arguments in front of those for the parameters. -/
def Signature.receivers (s : Signature) : Nat := if s.takesReceiver then 1 else 0

theorem copies_succ (argument : Nat → Nat) (n : Nat) :
    copies argument (n + 1) = copies argument n ++ [.ldarg (argument n), .stloc n] := by
  rw [copies, List.range_succ, List.flatMap_append]
  rfl

theorem length_copies (argument : Nat → Nat) (n : Nat) : (copies argument n).length = 2 * n := by
  induction n with
  | zero => rfl
  | succ n ih =>
    rw [copies_succ, List.length_append, ih]
    rfl

theorem copies_eq_iff {f g : Nat → Nat} {n : Nat} :
    copies f n = copies g n ↔ ∀ k < n, f k = g k := by
  induction n with
  | zero => simp [copies]
  | succ n ih =>
    rw [copies_succ, copies_succ]
    constructor
    · intro h k hk
      obtain ⟨front, last⟩ := List.append_inj h (by rw [length_copies, length_copies])
      rcases Nat.lt_succ_iff_lt_or_eq.1 hk with hk | rfl
      · exact ih.1 front k hk
      · simpa using last
    · intro h
      rw [ih.2 fun k hk => h k (Nat.lt_succ_of_lt hk), h n (Nat.lt_succ_self n)]

theorem copies_prefix_iff {f g : Nat → Nat} {n : Nat} {body : List Instruction} :
    copies f n <+: copies g n ++ body ↔ ∀ k < n, f k = g k := by
  rw [← copies_eq_iff]
  constructor
  · intro h
    have length : (copies f n).length = (copies g n).length := by rw [length_copies, length_copies]
    exact (List.prefix_of_prefix_length_le h (List.prefix_append _ _) length.le).eq_of_length length
  · intro h
    rw [h]
    exact List.prefix_append _ _

theorem Draft.copying_eq (site : Site) (n : Nat) : copying site 0 n =
    copies (fun k => min (k + site.sig.receivers) argumentLimit) n := by
  rw [copying, List.range_eq_range'.symm]
  rfl

theorem argument_of_mem_copies {f : Nat → Nat} {n a : Nat} (h : .ldarg a ∈ copies f n) :
    ∃ k < n, a = f k := by
  obtain ⟨k, hk, mem⟩ := List.mem_flatMap.1 h
  refine ⟨k, List.mem_range.1 hk, ?_⟩
  simpa using mem

namespace Job

variable {j : Job} {m : Method} {labels : Nat} {warnings : Array Warning}

theorem exists_first (hs : j.site.registry.Installed j.site.builtins) (linked : j.IsLinked)
    (h : j.compile = .ok (m, labels, warnings)) : j.parameters.length ≤ Locals.limit ∧
      ∃ body rest, m.segments = ⟨startName, j.prologue ++ body⟩ :: rest := by
  obtain ⟨d₀, d, opened, inRange, written, body, -⟩ := exists_written hs h
  have opens := opens linked opened
  refine ⟨?_, ?_⟩
  · rw [← opens.locals]
    exact (Array.length_toList ..).trans_le opens.limit
  · obtain ⟨rest, kept⟩ := kept_eq_cons inRange
    obtain ⟨names, code, -, he⟩ := written.closed 0
    rw [opens.code, if_pos rfl] at he
    have segments : m.segments = d.closed j.site 0 :: rest.map (d.closed j.site) := by
      rw [Method.segments, body, finished, kept, List.map_cons]
    obtain ⟨d', gives⟩ := Job.gives False hs False.elim h
    obtain ⟨code', rest', graph⟩ : ∃ code rest, d'.finished j.site = ⟨startName, code⟩ :: rest :=
      (gives.shaped.isGraph gives.step.inRange).start
    rw [← gives.segments, segments] at graph
    obtain ⟨first, -⟩ := List.cons.inj graph
    refine ⟨code, rest.map (d.closed j.site), ?_⟩
    rw [segments, ← he, first]

/-- An argument that is loaded is that of a parameter, or the receiver where there is one. -/
theorem argument_lt (hs : j.site.registry.Installed j.site.builtins) (linked : j.IsLinked)
    (receiver : j.source = .initializer false → j.site.sig.takesReceiver = true)
    (h : j.compile = .ok (m, labels, warnings)) {s : Segment} (mem : s ∈ m.segments) {a : Nat}
    (load : .ldarg a ∈ s.code) : a < j.parameters.length + j.site.sig.receivers := by
  have first (takes : j.site.sig.takesReceiver = true) :
      0 < j.parameters.length + j.site.sig.receivers := by
    rw [Signature.receivers, if_pos takes]
    exact Nat.succ_pos _
  cases exists_origin hs linked receiver h s mem _ load with
  | argument mem =>
    rw [prologue, copying_eq] at mem
    obtain ⟨k, hk, rfl⟩ := argument_of_mem_copies mem
    omega
  | value has hc mem =>
    rw [Scope.code_eq_codeAmid] at hc
    obtain ⟨y, -, puts⟩ := Scope.exists_puts hs (x := ([], _)) hc mem
    cases puts with
    | inner h => cases h
    | receiver takes => exact first takes
  | receiver takes => exact first takes
  | inner h => cases h

end Job

namespace Program

variable {options : Options} {items : List Item} {p : Program} {warnings : Array Warning}

theorem exists_job_of_parameters (built : build options items = .ok (p, warnings)) {m : Method}
    (hm : m ∈ p.methods) {segments : List Segment} (hb : m.body = .segments segments) :
    ∃ j ∈ jobs options items, (∃ labels ws, j.compile = .ok (m, labels, ws)) ∧
      j.site.sig = m.sig ∧ j.parameters = m.sig.params := by
  obtain ⟨j, hj, labels, ws, compiled⟩ := exists_job built hm hb
  obtain ⟨d, -, held⟩ := holds_of_mem_jobs hj
  have sig : j.site.sig = m.sig := held.sig.trans (Method.sig_compile compiled).1.symm
  refine ⟨j, hj, ⟨labels, ws, compiled⟩, sig, ?_⟩
  rw [← sig, Job.parameters]
  cases source : j.source with
  | declared decl => rfl
  | initializer isStatic => exact (signature_of_initializer hj source).1.symm

theorem exists_copies (built : build options items = .ok (p, warnings)) {m : Method}
    (hm : m ∈ p.methods) {segments : List Segment} (hb : m.body = .segments segments) :
    m.sig.params.length ≤ Locals.limit ∧ ∃ body rest, segments = ⟨startName,
      copies (fun k => min (k + m.sig.receivers) argumentLimit) m.sig.params.length ++ body⟩ :: rest := by
  obtain ⟨j, hj, ⟨labels, ws, compiled⟩, sig, params⟩ := exists_job_of_parameters built hm hb
  have linked : j.IsLinked := fun decl hd => params_of_mem_jobs hj hd
  obtain ⟨limit, body, rest, start⟩ := Job.exists_first (installed_of_mem_jobs hj) linked compiled
  rw [Method.segments, hb, Job.prologue, copying_eq, params, sig] at start
  exact ⟨params ▸ limit, body, rest, start⟩

/-- Every compiled method starts with copies for its parameters, which are not more than the slots, and
loads no argument that it does not have. The copies are from the parameters' own arguments exactly if
the arguments can be numbered. -/
theorem parameters_are_copied (built : build options items = .ok (p, warnings)) :
    ∀ m ∈ p.methods, ∀ segments, m.body = .segments segments →
      m.sig.params.length ≤ 65536 ∧
      ∃ first rest, segments = first :: rest ∧ first.name = "Start" ∧
        copies (fun k => min (k + m.sig.receivers) 65535) m.sig.params.length <+: first.code ∧
        (copies (· + m.sig.receivers) m.sig.params.length <+: first.code ↔
          m.sig.params.length + m.sig.receivers ≤ 65536) ∧
        ∀ s ∈ segments, ∀ a, .ldarg a ∈ s.code → a < m.sig.params.length + m.sig.receivers := by
  intro m hm segments hb
  obtain ⟨limit, body, rest, start⟩ := exists_copies built hm hb
  refine ⟨limit, _, rest, start, rfl, List.prefix_append _ _, ?_, ?_⟩
  · rw [copies_prefix_iff]
    have few : m.sig.receivers ≤ 1 := by
      rw [Signature.receivers]
      split <;> decide
    have limit : m.sig.params.length ≤ 65536 := limit
    constructor
    · intro same
      by_contra many
      have last := same 65535 (by omega)
      rw [argumentLimit] at last
      omega
    · intro room k hk
      rw [argumentLimit]
      omega
  · intro s mem a load
    obtain ⟨j, hj, ⟨labels, ws, compiled⟩, sig, params⟩ := exists_job_of_parameters built hm hb
    have within := Job.argument_lt (installed_of_mem_jobs hj) (fun decl hd => params_of_mem_jobs hj hd)
      (receiver_of_initializer hj) compiled (s := s) (by rwa [Method.segments, hb]) load
    rwa [params, sig] at within

/-- A method with a receiver and two parameters, that stores a field and calls itself. -/
def counter : List Char :=
  ("class Counter: field public last i32 " ++
    "def public i32 add(a: i32, b: i32): last = a + b return add(last, b) ; ;").toList

theorem parameters_are_copied_counter : ∃ tokens items p warnings,
    (Lexed.ofSource counter).tokens = .ok tokens ∧ Item.ofTokens tokens = .ok items ∧
      build {} items = .ok (p, warnings) ∧ ∃ m ∈ p.methods, ∃ segments,
        m.body = .segments segments ∧ m.sig.params.length = 2 ∧ m.sig.receivers = 1 ∧
          ∃ first rest, segments = first :: rest ∧ copies (· + 1) 2 <+: first.code ∧
            ∀ s ∈ segments, ∀ a, .ldarg a ∈ s.code → a < 3 := by
  have checked : passes counter (fun _ p => p.methods.any fun m =>
      m.isEmitted && m.sig.params.length == 2 && m.sig.receivers == 1) = true := by
    unfold counter
    simp only [String.toList_append]
    repeat rewrite [String.toList_ofList]
    decide +kernel
  obtain ⟨tokens, items, p, warnings, lexed, read, built, checked⟩ := exists_of_passes checked
  obtain ⟨m, hm, checked⟩ := List.any_eq_true.1 checked
  simp only [Bool.and_eq_true, beq_iff_eq] at checked
  obtain ⟨⟨emitted, two⟩, one⟩ := checked
  obtain ⟨segments, hb⟩ := Method.isEmitted_iff.1 emitted
  obtain ⟨-, first, rest, start, -, -, own, loads⟩ := parameters_are_copied built m hm segments hb
  rw [two, one] at own loads
  exact ⟨tokens, items, p, warnings, lexed, read, built, m, hm, segments, hb, two, one, first, rest,
    start, own.2 (by decide), loads⟩

end Program

/-! As many parameters as there are slots. -/

namespace Draft

variable {site : Site} {d : Draft}

theorem exists_params {ps : List (Param × TypeRef)} {n : Nat}
    (distinct : (d.locals.names ++ ps.map (·.1.name)).Nodup)
    (room : d.locals.size + ps.length ≤ Locals.limit) : ∃ d', d.params site n ps = .ok d' := by
  induction ps generalizing d n with
  | nil => exact ⟨d, rfl⟩
  | cons p ps ih =>
    obtain ⟨p, type⟩ := p
    have new := @find?_of_distinct _ _ distinct p.name (by simp)
    rw [List.length_cons] at room
    have free : d.locals.isFull = false := by
      simp only [Locals.isFull, decide_eq_false_iff_not, not_le]
      omega
    have names : (d.addLocal p.name type).locals.names ++ ps.map (·.1.name) =
        d.locals.names ++ ((p, type) :: ps).map (·.1.name) := by
      rw [addLocal, Locals.names, Locals.toList_add new, List.map_append]
      simp [Locals.names]
    have size : (d.addLocal p.name type).locals.size = d.locals.size + 1 := Locals.size_add new
    rw [params_cons_of_new new, free, if_neg Bool.false_ne_true]
    refine ih (d := (d.addLocal p.name type).emitAll _) ?_ ?_
    · rwa [locals_emitAll, names]
    · rw [locals_emitAll, size]
      omega

theorem exists_bareReturn (hv : site.returnsVoid = true) (d : Draft) (span : Span) :
    ∃ d', d.stmts site [.ret none span] = .ok d' := by
  have returns (d : Draft) : d.stmt site (.ret none span) = .ok (d.emit (.ret false)) := by
    rw [stmt, returnStmt, if_pos hv]
  rw [stmts]
  split
  next admitted _ =>
    cases admitted
    · exact ⟨_, rfl⟩
    · simp only [if_true, returns, ok_bind, stmts]
      exact ⟨_, rfl⟩

theorem exists_finish (hv : site.returnsVoid = true) (d : Draft) (span : Span) :
    ∃ r, d.finish site span = .ok r := by
  have closes (is : List Nat) (d : Draft) : ∃ d', is.foldlM (closeSegment site span) d = .ok d' := by
    induction is generalizing d with
    | nil => exact ⟨d, rfl⟩
    | cons i is ih =>
      obtain ⟨d₁, h₁⟩ : ∃ d₁, closeSegment site span d i = .ok d₁ := by
        unfold closeSegment
        dsimp only
        rw [if_pos hv]
        split <;> exact ⟨_, rfl⟩
      obtain ⟨d', h'⟩ := ih d₁
      exact ⟨d', by rw [List.foldlM_cons, h₁, ok_bind, h']⟩
  obtain ⟨d', h'⟩ := closes (List.range d.segments.size) d
  exact ⟨_, by rw [finish, h', ok_bind]⟩

end Draft

namespace Program

/-- A method that takes parameters `p_0`, `p_1` and so on of type `i32`, and returns at once. -/
def crowd (n : Nat) : MethodDecl :=
  ⟨"f", ⟨0, 0⟩, "void", ⟨0, 0⟩, (List.range n).map fun k => ⟨label "p" k, "i32", ⟨0, 0⟩⟩,
    .mk [.ret none ⟨0, 0⟩] ⟨0, 0⟩, true, .plain, ⟨0, 0⟩⟩

def crowdClass (n : Nat) : ClassDecl := ⟨"A", ⟨0, 0⟩, true, [], [crowd n], ⟨0, 0⟩⟩

def crowdMethod (n : Nat) : Method :=
  { sig := {
      nspace := "Program", owner := "A", name := "f", isStatic := false, isPublic := true
      isOperator := false, isSpecial := false, isBuiltin := false, returnType := { cls := 5 }
      params := (List.range n).map fun k => (label "p" k, { cls := 0 }) }
    span := ⟨0, 0⟩ }

def crowdOutline (c : Class) (n : Nat) : Outline :=
  ⟨0, 6, (c.addMethod (crowdMethod n)).1, [.declared (crowd n)]⟩

/-- A registry in which the class is placed, and has no members yet. -/
structure CrowdPlaced (r : Registry) (c : Class) : Prop where
  void : r.resolve? (TypeName.parse "void") 0 = some { cls := 5 }
  i32 : r.resolve? (TypeName.parse "i32") 0 = some { cls := 0 }
  shell : r.class? 6 = some c
  nspace : c.nspace = "Program"
  name : c.name = "A"
  fields : c.fields = []
  methods : c.methods = []

theorem exists_crowdPlaced :
    ∃ r c, Registry.base.declareClass? 0 "A" true = some (r, 6) ∧ CrowdPlaced r c :=
  ⟨_, _, rfl, by decide, by decide, rfl, rfl, rfl, rfl, rfl⟩

namespace CrowdPlaced

variable {r : Registry} {c : Class} (h : CrowdPlaced r c) (n : Nat)
include h

theorem signature : Outline.signature r 0 c (crowd n) = .ok (crowdMethod n).sig := by
  have params : (crowd n).params.mapM (fun p => do
      let type ← Outline.resolve r 0 p.typeName p.span
      pure (p.name, type)) = Except.ok (ε := Failure) (crowdMethod n).sig.params := by
    have one (k : Nat) : (do
        let type ← Outline.resolve r 0 "i32" ⟨0, 0⟩
        pure (label "p" k, type)) = (pure (label "p" k, ⟨0, false, false⟩) : Except Failure _) := by
      rw [Outline.resolve, h.i32]
      rfl
    rw [crowd, List.mapM_map]
    simp only [Function.comp_def, one]
    exact List.mapM_pure
  rw [Outline.signature, Outline.resolve, show (crowd n).returnType = "void" from rfl, h.void]
  simp only [ok_bind, params, h.nspace, h.name]
  rfl

theorem added : ∃ new, (crowdOutline c n).cls = c.pushMethod (crowdMethod n) new := by
  obtain ⟨new, added⟩ | ⟨taken, -⟩ := c.addMethod_cases (crowdMethod n)
  · exact ⟨new, congrArg Prod.fst added⟩
  · rw [Class.method?_eq, h.methods] at taken
    exact absurd rfl taken

theorem methods_outline : (crowdOutline c n).cls.methods = [crowdMethod n] := by
  obtain ⟨new, added⟩ := h.added n
  rw [added, Class.methods_pushMethod, h.methods, List.nil_append]

theorem addMethod : Outline.addMethod r 0 (c, #[]) (crowd n) =
    .ok ((crowdOutline c n).cls, #[]) :=
  Outline.addMethod_of_plain rfl (h.signature n) (Class.addMethod?_iff.2 (h.added n))

theorem ofPlaced : Outline.ofPlaced r 5 #[] ⟨crowdClass n, 0, 6⟩ =
    .ok (crowdOutline c n, #[]) := by
  have plain (isStatic : Bool) :
      Outline.needsInitializer (crowdOutline c n).cls isStatic = false := by
    obtain ⟨new, added⟩ := h.added n
    simp [Outline.needsInitializer, added, h.fields]
  rw [Outline.ofPlaced, h.shell]
  refine bind_eq_ok.2 ⟨c, rfl, bind_eq_ok.2 ⟨_, foldlM_cons_eq_ok.2 ⟨_, h.addMethod n, rfl⟩, ?_⟩⟩
  simp only [List.foldl_cons, List.foldl_nil, Outline.addInitializer, plain, Bool.false_eq_true,
    if_false]
  rfl

end CrowdPlaced

theorem declare_crowd (n : Nat) : ∃ d o, declare [.cls (crowdClass n)] = .ok d ∧
    d.outlines = [o] ∧ o.cls.methods = [crowdMethod n] ∧ o.sources = [.declared (crowd n)] := by
  obtain ⟨r, c, declared, placed⟩ := exists_crowdPlaced
  have here : [Item.cls (crowdClass n)].foldlM Placement.add { registry := Registry.base } =
      .ok ⟨r, 0, [⟨crowdClass n, 0, 6⟩]⟩ := by
    refine foldlM_cons_eq_ok.2 ⟨_, ?_, foldlM_nil_eq_ok.2 rfl⟩
    simp only [Placement.add, crowdClass, declared]
  let o := crowdOutline c n
  refine ⟨⟨r.updateClass 6 fun _ => o.cls, ⟨0, 1, 2, 3, 4, 5⟩, [o], #[]⟩, o, ?_, rfl, placed.methods_outline n, rfl⟩
  rw [declare_eq, here]
  change (outlines r 5 [⟨crowdClass n, 0, 6⟩] >>= _) = _
  rw [outlines_eq, List.foldlM_cons, outlinesStep, placed.ofPlaced n]
  rfl

theorem compile_crowd {n : Nat} (room : n ≤ Locals.limit) (site : Site)
    (sig : site.sig = (crowdMethod n).sig) (hv : site.returnsVoid = true) (m : Method) (labels : Nat)
    (warnings : Array Warning) :
    ∃ r, m.compile site (.declared (crowd n)) labels warnings = .ok r := by
  let ps := (crowd n).params.zip (site.sig.params.map (·.2))
  have length : (crowd n).params.length = (site.sig.params.map (·.2)).length := by
    simp [sig, crowd, crowdMethod]
  have fst : ps.map Prod.fst = (crowd n).params := List.map_fst_zip length.le
  have names : ps.map (·.1.name) = (List.range n).map (label "p") := by
    calc ps.map (·.1.name) = (ps.map Prod.fst).map (·.name) := by rw [List.map_map]; rfl
      _ = (List.range n).map (label "p") := by rw [fst, crowd, List.map_map]; rfl
  have distinct : (ps.map (·.1.name)).Nodup := by
    rw [names]
    exact List.nodup_range.map fun _ _ same => (label_injective same).2
  have size : ps.length = n := by
    rw [← List.length_map Prod.fst, fst, crowd, List.length_map, List.length_range]
  obtain ⟨d₁, copied⟩ : ∃ d₁, (start labels warnings).params site 0 ps = .ok d₁ :=
    exists_params distinct (by rw [size]; exact (Nat.zero_add n).trans_le room)
  obtain ⟨d₂, returned⟩ := exists_bareReturn hv d₁ ⟨0, 0⟩
  obtain ⟨r, finished⟩ := exists_finish hv d₂ (crowd n).nameSpan
  have source : (start labels warnings).source site (.declared (crowd n)) = .ok r := by
    rw [Draft.source]
    exact bind_eq_ok.2 ⟨d₁, copied, bind_eq_ok.2 ⟨d₂, returned, finished⟩⟩
  exact ⟨_, Method.compile_eq_ok.2 ⟨_, _, source, rfl, rfl, rfl⟩⟩

/-- The class is accepted where there is a slot for each parameter, and the method starts with the
copies. -/
theorem build_crowd {n : Nat} (room : n ≤ Locals.limit) : ∃ p warnings,
    build {} [.cls (crowdClass n)] = .ok (p, warnings) ∧ ∃ m ∈ p.methods,
      m.sig.params.length = n ∧ m.sig.receivers = 1 ∧ ∃ first rest body,
        m.body = .segments (first :: rest) ∧
        first.code = copies (fun k => min (k + 1) argumentLimit) n ++ body := by
  obtain ⟨d, o, declared, outlines, methods, sources⟩ := declare_crowd n
  let site : Site := ⟨d.registry, d.builtins, o.id, o.nspace, (crowdMethod n).sig, {}⟩
  let member : Member := ⟨crowdMethod n, site, .declared (crowd n)⟩
  have members : d.membersOf {} o = [member] := by
    rw [Declared.membersOf, methods, sources]
    rfl
  have hv : site.returnsVoid = true := by
    change (5 == d.builtins.void) = true
    rw [(declare_ordered declared).installed.builtins]
    rfl
  let j : Job := { toMember := member, labels := 0, warnings := d.warnings }
  have hj : j ∈ jobs {} [.cls (crowdClass n)] := by
    simp only [jobs, declared, Declared.members, outlines, List.flatMap_singleton, members]
    exact List.mem_cons_self
  obtain ⟨⟨c, labels, ws⟩, compiles⟩ := compile_crowd room site rfl hv member.method 0 d.warnings
  have all : Job.Compiles (d.membersOf {} o) 0 d.warnings [c] labels ws := by
    rw [members]
    exact .cons compiles .nil
  obtain ⟨⟨p, warnings⟩, built⟩ : ∃ r, build {} [.cls (crowdClass n)] = .ok r := by
    rw [build_eq, declared, ok_bind, outlines, List.foldlM_cons,
      compileClass_ok (p := ⟨_, 0, d.warnings⟩) all]
    exact ⟨_, rfl⟩
  obtain ⟨m, hm, labels, ws, compiled⟩ := exists_compiled built hj
  obtain ⟨segments, hb⟩ : ∃ segments, m.body = .segments segments := by
    obtain ⟨segments, _, -, rfl, -⟩ := Method.compile_eq_ok.1 compiled
    exact ⟨segments, rfl⟩
  have sig : m.sig = (crowdMethod n).sig := (Method.sig_compile compiled).1
  obtain ⟨-, body, rest, start⟩ := exists_copies built hm hb
  have length : m.sig.params.length = n := by simp [sig, crowdMethod]
  have receivers : m.sig.receivers = 1 := by rw [sig]; rfl
  rw [length, receivers] at start
  exact ⟨p, warnings, built, m, hm, length, receivers, _, rest, body,
    hb.trans (congrArg _ start), rfl⟩

/-- With a receiver the last two of 65536 parameters are copied from one argument. -/
theorem last_parameters_share_an_argument : ∃ p warnings,
    build {} [.cls (crowdClass 65536)] = .ok (p, warnings) ∧ ∃ m ∈ p.methods,
      m.sig.params.length = 65536 ∧ m.sig.receivers = 1 ∧ ∃ first rest,
        m.body = .segments (first :: rest) ∧ ¬ copies (· + 1) 65536 <+: first.code := by
  obtain ⟨p, warnings, built, m, hm, length, receivers, first, rest, body, hb, code⟩ :=
    build_crowd (n := 65536) le_rfl
  refine ⟨p, warnings, built, m, hm, length, receivers, first, rest, hb, ?_⟩
  rw [code, copies_prefix_iff]
  intro same
  exact absurd (same 65535 (by omega)) (by decide)

end Program
end ClassAsm
