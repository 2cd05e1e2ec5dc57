import ClassAsm.Proofs.Flow.Unreachable
import ClassAsm.Proofs.Method.Initializers
import ClassAsm.Proofs.Method.Slots
import ClassAsm.Proofs.Program.Members

/-! The expressions of a method. In a method that is accepted each of them compiles where it stands,
and its code is a stretch of one of the segments. -/

namespace ClassAsm

/-- The expressions of a statement, without those in its blocks. -/
def Stmt.values : Stmt → List Expr
  | .expr e | .assign _ _ _ e _ => [e]
  | .ret e _ => e.toList
  | .loop condition _ _ => [condition]
  | .cond first rest _ _ => (first :: rest).map Arm.condition
  | .declare .. => []

def Site.Omits (site : Site) (s : Stmt) : Prop :=
  ∃ e, s = .expr e ∧ e.isCall = false ∧ site.options.trimUselessCode = true

namespace Draft

variable {site : Site} {d d' : Draft} {code whole : List Instruction} {e : Expr}

def Contains (d : Draft) (code : List Instruction) : Prop := ∃ i, code <:+: d.codeAt i

theorem Contains.grows (h : d.Contains code) (grows : Grows d d') : d'.Contains code := by
  obtain ⟨i, stretch⟩ := h
  exact ⟨i, stretch.trans (grows.code i).isInfix⟩

theorem contains_emitAll (hr : d.InRange) (h : code <:+: whole) :
    (d.emitAll whole).Contains code := by
  refine ⟨d.current, ?_⟩
  rw [codeAt_emitAll hr, if_pos rfl]
  exact h.trans (List.suffix_append _ _).isInfix

/-- The expression compiles among the locals, and the draft contains its code. -/
def Computes (site : Site) (l : Locals) (e : Expr) (d : Draft) : Prop :=
  ∃ c, (site.scope l).code e = .ok c ∧ d.Contains c.instructions

theorem Computes.grows {l : Locals} (h : Computes site l e d) (grows : Grows d d') :
    Computes site l e d' := by
  obtain ⟨c, hc, contains⟩ := h
  exact ⟨c, hc, contains.grows grows⟩

theorem conditions_compute {as : List Arm} {segments : List Nat} (hr : d.InRange)
    (h : d.conditions site as = .ok (segments, d')) :
    Grows d d' ∧ ∀ a ∈ as, Computes site d.locals a.condition d' := by
  induction as generalizing d segments with
  | nil =>
    cases h
    exact ⟨Grows.refl _, nofun⟩
  | cons a as ih =>
    obtain ⟨_, d₁, _, ha, rest, rfl⟩ := conditions_cons_eq_ok.1 h
    have same := locals_condition ha
    obtain ⟨c, hc, -, rfl⟩ := condition_eq_ok.1 ha
    have spawned : (d.spawnFresh "Cond" false).2.InRange := hr.spawnFresh _ _
    have emitted := spawned.emitAll c.instructions
    have branched := grows_branch emitted (t := d.segments.size) (by simp) .brtrue
    obtain ⟨grows, others⟩ := ih (emitted.branch _) rest
    refine ⟨(((grows_spawnFresh _ _).trans (grows_emitAll spawned _)).trans branched).trans grows,
      fun b hb => ?_⟩
    rcases List.mem_cons.1 hb with rfl | hb
    · exact ⟨c, (Scope.valueCode_eq_ok.1 hc).1,
        (contains_emitAll spawned List.infix_rfl).grows (branched.trans grows)⟩
    · exact same ▸ others b hb

theorem assign_computes {name : String} {span : Span} {typeName : Option String}
    (hr : d.InRange) (h : d.assign site name span typeName e = .ok d') :
    Computes site d.locals e d' := by
  cases assign_emits h with
  | toStatic _ _ _ hc =>
    exact ⟨_, (Scope.valueCode_eq_ok.1 hc).1,
      contains_emitAll hr (List.prefix_append _ _).isInfix⟩
  | toInstance _ _ _ _ hc | through _ _ hc =>
    exact ⟨_, (Scope.valueCode_eq_ok.1 hc).1, contains_emitAll hr (List.infix_append _ _ _)⟩
  | @toLocal _ _ _ d₀ _ _ _ hc hb =>
    have bound : d₀.InRange := by
      cases hb with
      | known => exact hr
      | new => exact hr
    exact ⟨_, (Scope.valueCode_eq_ok.1 hc).1,
      contains_emitAll bound (List.prefix_append _ _).isInfix⟩

theorem Visited.grows (hs : site.registry.Installed site.builtins) {x : Draft} {ss : List Stmt}
    (h : Visited site d (.block ss) x) : Grows x d := by
  obtain ⟨y, compiled, grows⟩ := h.compiles
  have step : Step site False x y := h.done hs compiled
  exact step.grows.trans grows

end Draft

namespace Job

open Draft

/-- An expression stands in the method, among the given locals: in a statement of the body, or as the
default of a field. -/
inductive Has (j : Job) : Locals → Expr → Prop where
  | stmt {s : Stmt} {x : Draft} {e : Expr} (visits : j.Visits (.one s) x) (mem : e ∈ s.values)
      (kept : ¬ j.site.Omits s) : Has j x.locals e
  | default {c : Class} {f : Field} {e : Expr}
      (cls : j.site.registry.class? j.site.owner = some c) (field : f ∈ c.fields)
      (source : j.source = .initializer f.isStatic) (stored : f.default = some e) : Has j {} e

variable {j : Job} {d x : Draft} {m : Method} {labels : Nat} {warnings : Array Warning}

theorem Gives.contains {known : Prop} (h : j.Gives known d m labels warnings)
    {code : List Instruction} (hc : d.Contains code) : ∃ s ∈ m.segments, code <:+: s.code := by
  obtain ⟨i, stretch⟩ := hc
  have kept (k : Nat) (hk : k ∈ d.kept) (within : code <:+: d.codeAt k) :
      ∃ s ∈ m.segments, code <:+: s.code := by
    rw [h.segments]
    exact ⟨_, List.mem_map_of_mem hk, within.trans (List.prefix_append _ _).isInfix⟩
  by_cases hi : i ∈ d.kept
  · exact kept i hi stretch
  -- only segments without code are dropped, and the first one never is
  have bare : d.codeAt i = [] := by
    by_cases lt : i < d.segments.size
    · by_contra some
      refine hi (mem_kept.2 ⟨lt, ?_⟩)
      by_contra unused
      exact some (isUnused_iff.1 ((Bool.not_eq_false _).mp unused)).1
    · exact codeAt_of_size_le (not_lt.1 lt)
  rw [bare, List.infix_nil] at stretch
  obtain ⟨rest, hk⟩ := kept_eq_cons h.step.inRange
  exact kept 0 (hk ▸ List.mem_cons_self) (stretch ▸ List.nil_infix)

theorem Visits.computes (hs : j.site.registry.Installed j.site.builtins) {known : Prop}
    (h : j.Gives known d m labels warnings) {s : Stmt} (visits : j.Visits (.one s) x) {e : Expr}
    (mem : e ∈ s.values) (kept : ¬ j.site.Omits s) : Computes j.site x.locals e d := by
  have visited := h.visited hs visits
  obtain ⟨y, hone, grows⟩ := visited.compiles
  have hr := visited.inRange
  rw [Task.compile] at hone
  cases s with
  | expr e' =>
    obtain rfl := List.mem_singleton.1 mem
    rw [Draft.stmt] at hone
    obtain ⟨call, trim, -⟩ | ⟨c, hc, rfl⟩ := exprStmt_emits hone
    · exact absurd ⟨e, rfl, call, trim⟩ kept
    · have noted : (x.noted j.site e).InRange := by
        rcases @noted_eq_or j.site x e with he | he <;> rw [he] <;> exact hr
      exact ⟨c, hc, (contains_emitAll noted (List.prefix_append _ _).isInfix).grows grows⟩
  | declare => cases mem
  | assign name nameSpan typeName e' span =>
    obtain rfl := List.mem_singleton.1 mem
    rw [Draft.stmt] at hone
    exact (assign_computes hr hone).grows grows
  | ret value span =>
    obtain rfl := Option.mem_toList.1 mem
    rw [Draft.stmt] at hone
    obtain ⟨he, -, -⟩ | ⟨value, c, he, hc, -, rfl⟩ := returnStmt_emits hone
    · cases he
    · cases he
      rw [emitAll_emit] at grows
      exact ⟨c, hc, (contains_emitAll hr (List.prefix_append _ _).isInfix).grows grows⟩
  | loop condition body span =>
    obtain rfl := List.mem_singleton.1 mem
    simp only [stmt_loop, bind_eq_ok, Prod.exists, Except.ok.injEq] at hone
    obtain ⟨cond, after, d₁, start, -⟩ := hone
    have inside := h.visited hs (visits.leads (.body start))
    obtain ⟨c, hc, rfl, rfl, rfl⟩ := loopStart_eq_ok.1 start
    have size : x.loopHead.segments.size = x.segments.size + 2 := by
      change (x.loopSegments.branch .br x.segments.size).segments.size = _
      simp [loopSegments]
    have head : x.loopHead.InRange := by
      rw [InRange, size]
      exact Nat.lt_add_of_pos_right Nat.zero_lt_two
    have branched := grows_branch (head.emitAll c.instructions) (t := x.segments.size + 1)
      (by simp [size]) .brfalse
    exact ⟨c, (Scope.valueCode_eq_ok.1 hc).1, (contains_emitAll head List.infix_rfl).grows
      (branched.trans (inside.grows hs))⟩
  | cond first rest otherwise span =>
    simp only [stmt_cond, bind_eq_ok, Prod.exists, Except.ok.injEq] at hone
    obtain ⟨after, segments, d₁, start, -⟩ := hone
    have inside := h.visited hs (visits.leads (.otherwise start))
    obtain ⟨-, tests⟩ := condStart_eq_ok.1 start
    obtain ⟨a, ha, rfl⟩ := List.mem_map.1 mem
    exact ((conditions_compute (hr.spawnFresh _ _) tests).2 a ha).grows (inside.grows hs)

/-- Every expression of a method that is accepted compiles where it stands, and its code is in the
method. -/
theorem Has.compiles (hs : j.site.registry.Installed j.site.builtins)
    (h : j.compile = .ok (m, labels, warnings)) {l : Locals} {e : Expr} (has : j.Has l e) :
    ∃ c, (j.site.scope l).code e = .ok c ∧ ∃ s ∈ m.segments, c.instructions <:+: s.code := by
  cases has with
  | stmt visits mem kept =>
    obtain ⟨d, gives⟩ := Job.gives False hs False.elim h
    obtain ⟨c, hc, contains⟩ := visits.computes hs gives mem kept
    exact ⟨c, hc, gives.contains contains⟩
  | @default _ g _ found field source stored =>
    obtain ⟨stores, initializes⟩ := exists_initializes hs source h
    have mem : g ∈ stores.map Prod.fst := by
      rw [initializes.all.fields, found]
      simpa [stored] using field
    obtain ⟨⟨f, c⟩, hx, rfl⟩ := List.mem_map.1 mem
    obtain ⟨value, stored', hc, -⟩ := initializes.all.code _ hx
    obtain rfl := Option.some.inj (stored.symm.trans stored')
    refine ⟨c, (Scope.valueCode_eq_ok.1 hc).1, _, initializes.segments ▸ List.mem_singleton_self _, ?_⟩
    have stretch : c.instructions <:+: storing j.site f c.instructions := by
      unfold storing
      split
      · exact (List.prefix_append _ _).isInfix
      · exact List.infix_append _ _ _
    have among : storing j.site f c.instructions <:+: j.site.storingAll stores :=
      List.infix_of_mem_flatten (List.mem_map_of_mem hx)
    exact (stretch.trans among).trans (List.infix_append _ _ _)

/-- The expression that a body returns at once, with the locals there. -/
def returned? (j : Job) : Option (Locals × Expr) :=
  match j.opening, j.stmts with
  | .ok d, .ret (some e) _ :: _ => if d.isDead then none else some (d.locals, e)
  | _, _ => none

theorem has_of_returned? (h : j.returned? = some (l, e)) : j.Has l e := by
  unfold returned? at h
  split at h
  · next d e' span rest opened stmts =>
    split at h
    · cases h
    next alive =>
    cases h
    have first : j.Visits (.one (.ret (some e) span)) d := by
      refine ⟨d, opened, .single ?_⟩
      rw [stmts]
      exact .first (by simp [admit?, alive])
    refine .stmt first (by simp [Stmt.values]) ?_
    rintro ⟨_, other, -⟩
    cases other
  · cases h

theorem Compiles.exists_compiled {ms : List Member} {l l' : Nat} {w w' : Array Warning}
    {cs : List Method} (h : Compiles ms l w cs l' w') {j : Job} (hj : j ∈ schedule ms l w) :
    ∃ c ∈ cs, ∃ labels warnings, j.compile = .ok (c, labels, warnings) := by
  induction h with
  | nil => cases hj
  | @cons m rest l l₁ _ w w₁ _ c cs first _ ih =>
    have compiled : ({ toMember := m, labels := l, warnings := w } : Job).compile = .ok (c, l₁, w₁) :=
      first
    simp only [schedule, compiled] at hj
    rcases List.mem_cons.1 hj with rfl | hj
    · exact ⟨c, List.mem_cons_self, l₁, w₁, compiled⟩
    · obtain ⟨c', mem, others⟩ := ih hj
      exact ⟨c', List.mem_cons_of_mem _ mem, others⟩

end Job

namespace Program

variable {options : Options} {items : List Item} {p : Program} {warnings : Array Warning} {j : Job}

theorem exists_compiled (built : build options items = .ok (p, warnings)) (hj : j ∈ jobs options items) :
    ∃ m ∈ p.methods, ∃ labels warnings, j.compile = .ok (m, labels, warnings) := by
  obtain ⟨d, declared, finished⟩ := build_finished built
  obtain ⟨cs, l, w, compiles, methods⟩ := finished.compiles
  simp only [jobs, declared] at hj
  obtain ⟨m, mem, compiled⟩ := compiles.exists_compiled hj
  exact ⟨m, methods ▸ List.mem_append_right _ mem, compiled⟩

theorem exists_code (built : build options items = .ok (p, warnings)) (hj : j ∈ jobs options items)
    {l : Locals} {e : Expr} (has : j.Has l e) : ∃ c, (j.site.scope l).code e = .ok c ∧
      ∃ m ∈ p.methods, m.sig = j.method.sig ∧ ∃ s ∈ m.segments, c.instructions <:+: s.code := by
  obtain ⟨m, mem, labels, ws, compiled⟩ := exists_compiled built hj
  obtain ⟨c, hc, stretch⟩ := has.compiles (installed_of_mem_jobs hj) compiled
  exact ⟨c, hc, m, mem, (Method.sig_compile compiled).1, stretch⟩

/-- The source is accepted, and one of the jobs in it passes the check. To evaluate this, spell out the
characters of the source first: most of the time goes into decoding its text. -/
def anyJob (source : List Char) (check : Job → Bool) : Bool :=
  match (Lexed.ofSource source).tokens with
  | .error _ => false
  | .ok tokens =>
    match Item.ofTokens tokens with
    | .error _ => false
    | .ok items => (build {} items).isOk && (jobs {} items).any check

theorem exists_of_anyJob {source : List Char} {check : Job → Bool}
    (h : anyJob source check = true) : ∃ tokens items p warnings,
      (Lexed.ofSource source).tokens = .ok tokens ∧ Item.ofTokens tokens = .ok items ∧
        build {} items = .ok (p, warnings) ∧ ∃ j ∈ jobs {} items, check j = true := by
  unfold anyJob at h
  split at h
  · cases h
  next tokens lexed =>
  split at h
  · cases h
  next items read =>
  obtain ⟨accepted, checked⟩ := Bool.and_eq_true_iff.1 h
  obtain ⟨⟨p, warnings⟩, built⟩ := exists_eq_ok accepted
  exact ⟨tokens, items, p, warnings, lexed, read, built, List.any_eq_true.1 checked⟩

end Program
end ClassAsm
