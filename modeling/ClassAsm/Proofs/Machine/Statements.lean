import ClassAsm.Proofs.Machine.Course

/-! Running one statement. Its code is at the start of what remains of the current segment, and the
machine comes to what remains after it. For loops and conditions the course of the blocks inside is
given. Dead code is never entered, and nothing is said about it. -/

namespace ClassAsm.Draft

variable {V E : Type} {D x y : Draft} {site : Site} {low t : Nat} {c : Context} {M : Meaning V E}
  {args : List V} {k : Nat} {live : Prop} {out : List Instruction}

/-! Statements without blocks. -/

variable (fits : c.Fits D.locals)

include fits in
theorem evaluates_code (hg : Grows x D) {e : Expr} {code : Code}
    (h : (c.site.scope x.locals).code e = .ok code) (hu : c.usesNumbers e = true) :
    c.Evaluates D.locals M args e code ∧ Straight code.instructions :=
  ⟨fits.code hg.locals h hu, (Scope.code_leaves fits.installed h).straight⟩

include fits in
theorem evaluates_value (hg : Grows x D) {e : Expr} {code : Code}
    (h : (c.site.scope x.locals).valueCode e = .ok code) (hu : c.usesNumbers e = true) :
    c.Evaluates D.locals M args e code ∧ Straight code.instructions ∧
      (c.site.scope D.locals).isVoid code.type = false := by
  obtain ⟨hc, hv⟩ := Scope.valueCode_eq_ok.1 h
  obtain ⟨ev, straight⟩ := evaluates_code fits hg hc hu
  exact ⟨ev, straight, hv⟩

theorem isDead_emitAll_of_running (hr : x.InRange) (hd : x.isDead = false)
    {code : List Instruction} (straight : Straight code) : (x.emitAll code).isDead = false := by
  rw [isDead_emitAll hr straight (fallsThrough_of_running hd), hd]

include fits in
theorem goes_assigned (hr : x.InRange) (hd : x.isDead = false) (hx : Grows x D) (hg : Grows y D)
    {name : String} {nameSpan span : Span} {typeName : Option String} {e : Expr} {n : Nat}
    (h : Assigned c.site x name e typeName y)
    (hu : c.stmtUsesNumbers (.assign name nameSpan typeName e span) = true) :
    D.GoesFrom c M args k (D.rest c.site x) (y.isDead = false) (D.rest c.site y)
      (c.exec M n (.assign name nameSpan typeName e span)) := by
  have hue : c.usesNumbers e = true := (Bool.and_eq_true_iff.1 hu).2
  intro s slots hs
  rw [Context.exec]
  cases h with
  | @toStatic f code hl hf hst hc ht =>
    obtain ⟨ev, straight, hv⟩ := evaluates_value fits hx hc hue
    rw [rest_emitAll hr hg, List.append_assoc]
    apply Goes.withOne ev hv straight hs
    intro v w
    have field : c.field? name = some f := hf
    simp only [Context.assign, fits.local?_of_field field, field, Option.isSome_none,
      Bool.false_eq_true, if_false]
    exact ⟨isDead_emitAll_of_running hr hd (straight.append (Straight.one rfl)), 1, slots, hs, rfl⟩
  | toInstance _ _ _ receiver =>
    rw [fits.isStatic] at receiver
    cases receiver
  | through hl address =>
    have number := (fits.known (hx.locals _ _ hl)).2.1
    rw [(Context.isNumber_iff.1 number).1] at address
    cases address
  | @toLocal _ slot code d₀ _ _ _ hc hb =>
    obtain ⟨ev, straight, hv⟩ := evaluates_value fits hx hc hue
    have bound : d₀.locals.find? name = some (slot, code.type) ∧ d₀.InRange ∧
        d₀.isDead = false ∧ D.rest c.site x = D.rest c.site d₀ := by
      cases hb with
      | known hk => exact ⟨hk, hr, hd, rfl⟩
      | new hk => exact ⟨Locals.find?_add hk, hr, hd, rfl⟩
    obtain ⟨known, hr₀, hd₀, same⟩ := bound
    have final : D.locals.find? name = some (slot, code.type) :=
      hg.locals _ _ (by rw [locals_emitAll]; exact known)
    rw [same, rest_emitAll hr₀ hg, List.append_assoc]
    apply Goes.withOne ev hv straight hs
    intro v w
    obtain ⟨lt, stored⟩ := hs.update final v
    simp only [Context.assign, (fits.known final).1, Option.isSome_some, if_true]
    have stores : Straight [.stloc slot] := Straight.one rfl
    refine ⟨isDead_emitAll_of_running hr₀ hd₀ (straight.append stores), 1, _, stored, ?_⟩
    simp [Machine.after, Machine.next, Machine.step, Meaning.effect, lt]

theorem goes_declare (hd : x.isDead = false) {name : String} {nameSpan span : Span}
    {typeName : String} {n : Nat} (h : x.declare c.site name nameSpan typeName = .ok y) :
    D.GoesFrom c M args k (D.rest c.site x) (y.isDead = false) (D.rest c.site y)
      (c.exec M n (.declare name nameSpan typeName span)) := by
  intro s slots hs
  rw [Context.exec]
  obtain ⟨type, slot, -, hb⟩ := declare_emits h
  cases hb with
  | known => exact ⟨hd, 0, slots, hs, rfl⟩
  | new => exact ⟨hd, 0, slots, hs, rfl⟩

include fits in
theorem goes_exprStmt (trim : c.site.options.trimUselessCode = false) (hr : x.InRange)
    (hd : x.isDead = false) (hx : Grows x D) (hg : Grows y D) {e : Expr} {n : Nat}
    (h : x.exprStmt c.site e = .ok y) (hu : c.usesNumbers e = true) :
    D.GoesFrom c M args k (D.rest c.site x) (y.isDead = false) (D.rest c.site y)
      (c.exec M n (.expr e)) := by
  intro s slots hs
  rw [Context.exec]
  rcases exprStmt_emits h with ⟨-, trimmed, -⟩ | ⟨code, hc, rfl⟩
  · rw [trim] at trimmed
    cases trimmed
  obtain ⟨ev, straight⟩ := evaluates_code fits hx hc hu
  have noted : (x.noted c.site e).InRange ∧ (x.noted c.site e).isDead = false ∧
      D.rest c.site x = D.rest c.site (x.noted c.site e) := by
    rcases @noted_eq_or c.site x e with h | h <;> rw [h] <;> exact ⟨hr, hd, rfl⟩
  obtain ⟨hr₀, hd₀, same⟩ := noted
  rw [same, rest_emitAll hr₀ hg, List.append_assoc]
  apply Goes.withValue ev straight hs
  intro v w
  by_cases hv : code.type.cls = c.site.builtins.void
  · simp only [hv, if_true, List.append_nil] at hg ⊢
    have none : (c.site.scope D.locals).pushes code.type = 0 := by
      simp [Scope.pushes, Scope.isVoid, Site.scope, hv]
    rw [none]
    exact ⟨isDead_emitAll_of_running hr₀ hd₀ straight, 0, slots, hs, rfl⟩
  · simp only [hv, if_false] at hg ⊢
    have one : (c.site.scope D.locals).pushes code.type = 1 := by
      simp [Scope.pushes, Scope.isVoid, Site.scope, hv]
    rw [one]
    have pops : Straight [.pop] := Straight.one rfl
    exact ⟨isDead_emitAll_of_running hr₀ hd₀ (straight.append pops), 1, slots, hs, rfl⟩

include fits in
theorem goes_returnStmt (hr : x.InRange) (hx : Grows x D) (hg : Grows y D) {e : Option Expr}
    {span : Span} {n : Nat} (h : x.returnStmt c.site e span = .ok y)
    (hu : c.stmtUsesNumbers (.ret e span) = true) :
    D.GoesFrom c M args k (D.rest c.site x) (y.isDead = false) (D.rest c.site y)
      (c.exec M n (.ret e span)) := by
  intro s slots hs
  rcases returnStmt_emits h with ⟨rfl, -, rfl⟩ | ⟨value, code, rfl, hc, ht, rfl⟩
  · rw [emit_eq_emitAll] at hg ⊢
    rw [Context.exec, rest_emitAll hr hg]
    exact ⟨by simp, 1, rfl⟩
  · obtain ⟨ev, straight⟩ := evaluates_code fits hx hc hu
    rw [emitAll_emit] at hg ⊢
    rw [Context.exec, rest_emitAll hr hg, List.append_assoc]
    refine Goes.withValue ev straight hs fun v w => ⟨by simp, 1, ?_⟩
    by_cases hv : code.type.cls = c.site.builtins.void
    · have none : (c.site.scope D.locals).pushes code.type = 0 := by
        simp [Scope.pushes, Scope.isVoid, Site.scope, hv]
      have void : c.site.returnsVoid = true := by simp [Site.returnsVoid, ← ht, hv]
      simp [none, void, hv, Machine.after, Machine.next, Machine.step]
    · have one : (c.site.scope D.locals).pushes code.type = 1 := by
        simp [Scope.pushes, Scope.isVoid, Site.scope, hv]
      have void : c.site.returnsVoid = false := by simp [Site.returnsVoid, ← ht, hv]
      have flag : (code.type.cls != c.site.builtins.void) = true := by simpa using hv
      simp [one, void, flag, Machine.after, Machine.next, Machine.step]

/-! Loops and conditions up to their first block. -/

theorem rest_spawnFresh (stem : String) (m : Bool) :
    D.rest site (x.spawnFresh stem m).2 = D.rest site x := by
  rw [rest, rest, current_spawnFresh, codeAt_spawnFresh]

theorem running_of_open (hd : x.isDead = false) (hg : Grows x y) (hc : y.current = x.current)
    (ho : y.fallsThrough = true) : y.isDead = false := by
  rw [isDead_eq_not_isLive ho, hc, hg.live _ (isDead_eq_false_iff.1 hd).2]
  rfl

/-- A branch that can run leads to a live segment. -/
theorem live_branch (hd : x.isDead = false) (ht : t < x.segments.size)
    (make : String → Instruction) :
    ((x.branch make t).segment t).isLive = true ∧
      ((x.branch make t).segment t).isTargeted = true := by
  rw [isLive_branch make ht, isTargeted_branch make ht]
  simp [hd]

include fits in
theorem condition_running (hr : x.InRange) (hd : x.isDead = false) {a : Arm}
    (h : x.condition c.site a = .ok (t, y)) :
    y.isDead = false ∧ (y.segment t).isLive = true ∧ (y.segment t).isTargeted = true := by
  have start : ArmsStart c.site False x y [t] :=
    condition_start fits.installed hr (fallsThrough_of_running hd) h
  obtain ⟨code, hc, rfl, rfl⟩ := condition_eq_ok.1 h
  refine ⟨running_of_open hd start.step.grows start.current start.open', ?_⟩
  refine live_branch ?_ ?_ _
  · have straight := (Scope.valueCode_leaves fits.installed hc).straight
    apply isDead_emitAll_of_running (hr.spawnFresh _ _) _ straight
    rw [isDead_spawnFresh hr, hd]
  · rw [size_emitAll, size_spawnFresh]
    omega

include fits in
theorem conditions_running {as : List Arm} {segments : List Nat} (hr : x.InRange)
    (hd : x.isDead = false) (h : x.conditions c.site as = .ok (segments, y)) :
    y.isDead = false ∧ ∀ t ∈ segments, (y.segment t).isLive = true := by
  induction as generalizing x segments with
  | nil =>
    cases h
    exact ⟨hd, nofun⟩
  | cons a as ih =>
    obtain ⟨segment, x₁, rest, hf, hrest, rfl⟩ := conditions_cons_eq_ok.1 h
    have first : ArmsStart c.site False x x₁ [segment] :=
      condition_start fits.installed hr (fallsThrough_of_running hd) hf
    obtain ⟨hd₁, live, -⟩ := condition_running fits hr hd hf
    have others : ArmsStart c.site False x₁ _ rest :=
      conditions_start fits.installed first.step.inRange first.open' hrest
    obtain ⟨hd₂, lives⟩ := ih first.step.inRange hd₁ hrest
    refine ⟨hd₂, ?_⟩
    intro t ht
    rcases List.mem_cons.1 ht with rfl | ht
    · exact others.step.grows.live _ live
    · exact lives t ht

include fits in
/-- The condition of an arm, with the arm in its own segment. -/
theorem goes_condition (shaped : Shaped low D) {a : Arm} {body other : Store V E → Flow V E}
    (hr : x.InRange) (hd : x.isDead = false) (h : x.condition c.site a = .ok (t, y))
    (hg : Grows y D) (hu : c.usesNumbers a.condition = true)
    (harm : D.GoesFrom c M args k (D.closed c.site t).code live out body)
    (hother : D.GoesFrom c M args k (D.rest c.site y) live out other) :
    D.GoesFrom c M args k (D.rest c.site x) live out (c.choose M a.condition body other) := by
  obtain ⟨-, -, targeted⟩ := condition_running fits hr hd h
  have start : ArmsStart c.site False x y [t] :=
    condition_start fits.installed hr (fallsThrough_of_running hd) h
  have jump := fun f : Frame V E => shaped.jump_of_isTargeted c.site hg targeted f
  obtain ⟨code, hc, rfl, rfl⟩ := condition_eq_ok.1 h
  obtain ⟨ev, straight, hv⟩ := evaluates_value fits (start.step.grows.trans hg) hc hu
  have hr₁ := hr.spawnFresh "Cond" false
  have hr₂ := hr₁.emitAll code.instructions
  have lt : x.segments.size <
      ((x.spawnFresh "Cond" false).2.emitAll code.instructions).segments.size := by
    rw [size_emitAll, size_spawnFresh]
    omega
  rw [← rest_spawnFresh "Cond" false, rest_emitAll hr₁ ((grows_branch hr₂ lt .brtrue).trans hg),
    rest_branch hr₂ hg]
  rw [name_branch] at jump
  refine (GoesFrom.choose ev hv straight (fun v slots w => ?_) harm hother).mono (Nat.le_succ k)
  change (if M.isTrue v = true then Machine.jump _ _ _ else _) = _
  rw [jump]
  split <;> rfl

include fits in
/-- The conditions of arms are tried in order. -/
theorem goes_conditions (shaped : Shaped low D) {as : List Arm} {segments : List Nat} {n : Nat}
    {other : Store V E → Flow V E} (hr : x.InRange) (hd : x.isDead = false)
    (h : x.conditions c.site as = .ok (segments, y)) (hg : Grows y D)
    (hu : ∀ a ∈ as, c.usesNumbers a.condition = true)
    (harms : ∀ p ∈ segments.zip as, D.GoesFrom c M args k (D.closed c.site p.1).code live out
      (c.execBlock M n p.2.body.stmts))
    (hother : D.GoesFrom c M args k (D.rest c.site y) live out other) :
    D.GoesFrom c M args k (D.rest c.site x) live out (c.execArms M n other as) := by
  induction as generalizing x segments with
  | nil =>
    cases h
    intro s slots hs
    rw [Context.execArms]
    exact hother s slots hs
  | cons a as ih =>
    obtain ⟨segment, x₁, segments, hf, hrest, rfl⟩ := conditions_cons_eq_ok.1 h
    have first : ArmsStart c.site False x x₁ [segment] :=
      condition_start fits.installed hr (fallsThrough_of_running hd) hf
    obtain ⟨hd₁, -, -⟩ := condition_running fits hr hd hf
    have others : ArmsStart c.site False x₁ _ segments :=
      conditions_start fits.installed first.step.inRange first.open' hrest
    have tail := ih first.step.inRange hd₁ hrest (fun b hb => hu b (List.mem_cons_of_mem _ hb))
      fun p hp => harms p (List.mem_cons_of_mem _ hp)
    have head := goes_condition fits shaped hr hd hf (others.step.grows.trans hg) (hu a (by simp))
      (harms (segment, a) List.mem_cons_self) tail
    obtain ⟨e, ⟨body, bs⟩, span⟩ := a
    intro s slots hs
    rw [Context.execArms]
    exact head s slots hs

include fits in
theorem loopStart_running (hr : x.InRange) (hd : x.isDead = false) {e : Expr} {cond after : Nat}
    (h : x.loopStart c.site e = .ok (cond, after, y)) :
    y.isDead = false ∧ (y.segment cond).isTargeted = true ∧ (y.segment after).isLive = true ∧
      (y.segment after).isTargeted = true := by
  have ho := fallsThrough_of_running hd
  have new := loopSegments_new c.site False hr
  have head : LoopStart c.site False x x.loopHead _ _ := loopHead_start hr ho
  have start : LoopStart c.site False x y _ _ := loopStart_start fits.installed hr ho h
  obtain ⟨code, hc, rfl, rfl, rfl⟩ := loopStart_eq_ok.1 h
  have hr₁ := head.step.inRange
  have hd₁ : x.loopHead.isDead = false := by
    rw [isDead_eq_not_isLive head.open', head.current, isLive_loopHead hr hd]
    rfl
  have lt := head.lt_emitAll code.instructions
  have grows := (grows_emitAll hr₁ code.instructions).trans
    (grows_branch (hr₁.emitAll _) lt .brfalse)
  have targeted : (x.loopHead.segment x.segments.size).isTargeted = true :=
    (live_branch ((isDead_loopSegments hr).trans hd) new.cond.joint.lt .br).2
  have straight := (Scope.valueCode_leaves fits.installed hc).straight
  exact ⟨running_of_open hd₁ grows (start.current.trans head.current.symm) start.open',
    grows.targeted _ targeted,
    live_branch (isDead_emitAll_of_running hr₁ hd₁ straight) lt .brfalse⟩

/-- The code before the body of a loop: a branch to its condition, and there one past the body. -/
theorem loopStart_laid (hr : x.InRange) (hd : x.isDead = false) {e : Expr} {cond after : Nat}
    (h : x.loopStart site e = .ok (cond, after, y)) (hg : Grows y D) :
    ∃ code, (site.scope x.locals).valueCode e = .ok code ∧
      (∃ more, D.rest site x = .br (y.segment cond).name :: more) ∧
      (D.closed site cond).code =
        code.instructions ++ .brfalse (y.segment after).name :: D.rest site y := by
  have new := loopSegments_new site False hr
  have head : LoopStart site False x x.loopHead _ _ :=
    loopHead_start hr (fallsThrough_of_running hd)
  obtain ⟨code, hc, rfl, rfl, rfl⟩ := loopStart_eq_ok.1 h
  have hr₁ := head.step.inRange
  have hr₂ := hr₁.emitAll code.instructions
  have lt := head.lt_emitAll code.instructions
  have hg₂ : Grows (x.loopHead.emitAll code.instructions) D :=
    (grows_branch hr₂ lt .brfalse).trans hg
  have hg₁ : Grows x.loopHead D := (grows_emitAll hr₁ _).trans hg₂
  refine ⟨code, hc, ⟨D.rest site (x.loopSegments.branch .br x.segments.size), ?_⟩, ?_⟩
  · have same : D.rest site x.loopSegments = D.rest site x :=
      (rest_spawnFresh _ _).trans (rest_spawnFresh _ _)
    have name : (x.loopHead.segment x.segments.size).name =
        (x.loopSegments.segment x.segments.size).name := name_branch .br
    rw [name_branch, name_emitAll, name, ← same,
      rest_branch new.step.inRange (grows_switchTo.trans hg₁)]
  · have empty : x.loopHead.codeAt x.loopHead.current = [] := by
      change (x.loopSegments.branch .br x.segments.size).codeAt x.segments.size = []
      have apart : x.segments.size ≠ x.loopSegments.current := Nat.ne_of_gt hr
      rw [codeAt_branch _ new.step.inRange, if_neg apart, new.cond.empty]
    have whole : D.rest site x.loopHead = (D.closed site x.segments.size).code :=
      rest_of_empty empty
    rw [← whole, rest_emitAll hr₁ hg₂, rest_branch hr₂ hg, name_branch]

/-- Turns of a loop. -/
theorem goes_turns {e : Expr} {code : Code} (ev : c.Evaluates D.locals M args e code)
    (hv : (c.site.scope D.locals).isVoid code.type = false) (straight : Straight code.instructions)
    {more start ends : List Instruction} {alive : Prop} {body : Store V E → Flow V E} {n : Nat}
    (branches : ∀ v slots w,
      Machine.next M args (D.finished c.site) (.inside more ⟨[v], slots, w⟩) =
        .inside (if M.isTrue v then start else out) ⟨[], slots, w⟩)
    (hbody : D.GoesFrom c M args n start alive ends body)
    (back : alive → ∀ slots w,
      Machine.next M args (D.finished c.site) (.inside ends ⟨[], slots, w⟩) =
        .inside (code.instructions ++ more) ⟨[], slots, w⟩)
    (hl : live) (hk : k ≤ n) :
    D.GoesFrom c M args k (code.instructions ++ more) live out (c.turns M e body k) := by
  induction k with
  | zero => exact fun s slots hs => ⟨0, le_rfl, _, _, rfl, rfl⟩
  | succ k ih =>
    have again := ih (by omega)
    have turn : D.GoesFrom c M args k start live out
        fun s => (body s).andThen (c.turns M e body k) := by
      intro s slots hs
      apply ((hbody s slots hs).mono (by omega)).andThen
      intro ha s slots hs
      exact Goes.after (n := 1) (back ha slots s.world) (again s slots hs)
    have stay : D.GoesFrom c M args k out live out .next :=
      fun s slots hs => ⟨hl, 0, slots, hs, rfl⟩
    exact GoesFrom.choose ev hv straight branches turn stay

/-- Where control comes to the end of a block, it goes on to the segment that joins. -/
theorem next_of_join (shaped : Shaped low D) (hr : x.InRange) (hd : x.isDead = false)
    (ht : t < x.segments.size) (hg : Grows (x.join t) D) (slots : List V) (w : World V E) :
    Machine.next M args (D.finished c.site) (.inside (D.rest c.site x) ⟨[], slots, w⟩) =
      .inside (D.closed c.site t).code ⟨[], slots, w⟩ := by
  rw [join, if_pos (fallsThrough_of_running hd)] at hg
  have jump := @Shaped.jump_of_isTargeted V E _ _ _ _ shaped c.site hg (live_branch hd ht .br).2
    ⟨[], slots, w⟩
  rw [rest_branch hr hg, ← jump, name_branch]
  rfl

include fits in
theorem goes_loop (shaped : Shaped low D) (hr : x.InRange) (hd : x.isDead = false) {e : Expr}
    {x₁ x₂ : Draft} {cond after n : Nat} {body : Store V E → Flow V E}
    (h : x.loopStart c.site e = .ok (cond, after, x₁)) (inner : Step c.site False x₁ x₂)
    (hg : Grows (x₂.join cond) D) (hu : c.usesNumbers e = true)
    (hbody : D.GoesFrom c M args n (D.rest c.site x₁) (x₂.isDead = false) (D.rest c.site x₂) body) :
    D.GoesFrom c M args n (D.rest c.site x) (((x₂.join cond).switchTo after).isDead = false)
      (D.rest c.site ((x₂.join cond).switchTo after)) (c.turns M e body n) := by
  have start : LoopStart c.site False x x₁ cond after :=
    loopStart_start fits.installed hr (fallsThrough_of_running hd) h
  obtain ⟨-, targeted, live, targeted'⟩ := loopStart_running fits hr hd h
  have lt : cond < x₂.segments.size := start.joint.lt.trans_le inner.grows.size
  have hg₁ : Grows x₁ D := (inner.grows.trans (grows_join inner.inRange lt)).trans hg
  obtain ⟨code, hc, ⟨more, first⟩, laid⟩ := loopStart_laid hr hd h hg₁
  obtain ⟨ev, straight, hv⟩ := evaluates_value fits (start.step.grows.trans hg₁) hc hu
  have toCond := fun f : Frame V E => shaped.jump_of_isTargeted c.site hg₁ targeted f
  have toAfter := fun f : Frame V E => shaped.jump_of_isTargeted c.site hg₁ targeted' f
  have join := start.join inner
  have new := start.new.step (inner.trans join) (by rw [start.current]; exact start.apart)
  have alive : ((x₂.join cond).switchTo after).isDead = false :=
    isDead_eq_false_iff.2
      ⟨isTerminated_of_empty new.empty, (inner.grows.trans join.grows).live _ live⟩
  have behind : D.rest c.site ((x₂.join cond).switchTo after) = (D.closed c.site after).code :=
    rest_of_empty new.empty
  rw [behind, first]
  intro s slots hs
  refine Goes.after (n := 1) (toCond _) ?_
  rw [laid]
  refine goes_turns ev hv straight (fun v slots w => ?_) hbody (fun ha slots w => ?_) alive le_rfl s
    slots hs
  · change (if M.isTrue v = true then _ else Machine.jump _ _ _) = _
    rw [toAfter]
    split <;> rfl
  · rw [next_of_join shaped inner.inRange ha lt hg, laid]

theorem live_join (hd : x.isDead = false) (ht : t < x.segments.size) :
    ((x.join t).segment t).isLive = true := by
  rw [join, if_pos (fallsThrough_of_running hd)]
  exact (live_branch hd ht .br).1

end ClassAsm.Draft
