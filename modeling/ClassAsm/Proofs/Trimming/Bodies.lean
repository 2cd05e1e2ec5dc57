import ClassAsm.Proofs.Trimming.Blocks

/-! The run of a body in both drafts, by induction on the run of the whole one. Loops and conditions
set up their segments in both; arms of the trimmed draft have other numbers, but belong to those of
the whole one pair by pair. -/

namespace ClassAsm.Draft

variable {o : Options} {site : Site} {P : Nat → Nat → Prop} {names names' : List String}
  {d d' e e' : Draft}

theorem spares_congr (h : e.locals = d.locals) (value : Expr) :
    e.spares o site names value = d.spares o site names value := by
  simp only [spares, h]

theorem codeAt_loopHead (site : Site) (hr : d.InRange) :
    d.loopHead.codeAt d.segments.size = [] := by
  have new := loopSegments_new site False hr
  have apart : d.segments.size ≠ d.loopSegments.current := Nat.ne_of_gt hr
  change (d.loopSegments.branch .br d.segments.size).codeAt d.segments.size = []
  rw [codeAt_branch _ new.step.inRange, if_neg apart]
  exact new.cond.empty

/-! Loops and conditions up to their first block. -/

section

variable (hs : site.registry.Installed site.builtins)

include hs

theorem Synced.condition (h : Synced o site P names d d') (ho : d.fallsThrough = true) {a : Arm}
    {segment : Nat} (ha : d.condition site a = .ok (segment, e))
    (sp : d.spares o site names a.condition = true) :
    ∃ segment' e', d'.condition (site.under o) a = .ok (segment', e') ∧
      morePairs P d d' segment segment' ∧ Synced o site (morePairs P d d') names e e' := by
  obtain ⟨c, hc, rfl, rfl⟩ := condition_eq_ok.1 ha
  have spawned := h.spawn "Cond" (by decide)
  obtain ⟨c', hc', -, straight, straight', same⟩ := spawned.valueCode hs hc sp
  have pair : morePairs P d d' d.segments.size d'.segments.size := .inr ⟨rfl, rfl⟩
  have new := @isNew_spawnFresh d "Cond" (by decide)
  have new' := @isNew_spawnFresh d' "Cond" (by decide)
  refine ⟨_, _, condition_eq_ok.2 ⟨c', hc', rfl, rfl⟩, pair, ?_⟩
  exact spawned.jump (fallsThrough_spawnFresh h.fair.inRange ho _ _) straight straight' same
    .ifTrue pair new.joint new'.joint fun hm => by
      rw [isMutedHere_spawnFresh h.fair.inRange, ← new.muted, hm]

theorem Synced.conditions (h : Synced o site P names d d') (ho : d.fallsThrough = true)
    {as : List Arm} {segments : List Nat} (hc : d.conditions site as = .ok (segments, e))
    (sp : ∀ a ∈ as, d.spares o site names a.condition = true) :
    ∃ P' segments' e', (∀ i k, P i k → P' i k) ∧
      d'.conditions (site.under o) as = .ok (segments', e') ∧
      List.Forall₂ P' segments segments' ∧ Synced o site P' names e e' := by
  induction as generalizing P d d' segments e with
  | nil =>
    cases hc
    exact ⟨P, [], d', fun _ _ => id, rfl, .nil, h⟩
  | cons a as ih =>
    obtain ⟨segment, d₁, rest, hf, hr, rfl⟩ := conditions_cons_eq_ok.1 hc
    obtain ⟨segment', d₁', hf', pair, first⟩ := h.condition hs ho hf (sp a (by simp))
    have start : ArmsStart site False d d₁ [segment] := condition_start hs h.fair.inRange ho hf
    obtain ⟨P', rest', e', more, hr', pairs, synced⟩ := ih first start.open' hr fun b hb =>
      (spares_congr (locals_condition hf) _).trans (sp b (by simp [hb]))
    exact ⟨P', segment' :: rest', e', fun i k hp => more i k (.inl hp),
      conditions_cons_eq_ok.2 ⟨_, _, _, hf', hr', rfl⟩, .cons (more _ _ pair) pairs, synced⟩

theorem Synced.condStart (h : Synced o site P names d d') (ho : d.fallsThrough = true)
    {as : List Arm} {after : Nat} {segments : List Nat}
    (hc : d.condStart site as = .ok (after, segments, e))
    (sp : ∀ a ∈ as, d.spares o site names a.condition = true) :
    ∃ P' after' segments' e', (∀ i k, P i k → P' i k) ∧
      d'.condStart (site.under o) as = .ok (after', segments', e') ∧ P' after after' ∧
      List.Forall₂ P' segments segments' ∧ Synced o site P' names e e' := by
  obtain ⟨rfl, tests⟩ := condStart_eq_ok.1 hc
  obtain ⟨P', segments', e', more, tests', pairs, synced⟩ :=
    (h.spawn "AfterCond" (by decide)).conditions hs
      (fallsThrough_spawnFresh h.fair.inRange ho _ _) tests sp
  exact ⟨P', d'.segments.size, segments', e', fun i k hp => more i k (.inl hp),
    condStart_eq_ok.2 ⟨rfl, tests'⟩, more _ _ (.inr ⟨rfl, rfl⟩), pairs, synced⟩

/-- The condition of a loop gets a segment of its own, so that control can come back to it. -/
theorem Synced.loopStart (h : Synced o site P names d d') (ho : d.fallsThrough = true) {c : Expr}
    {cond after : Nat} (hl : d.loopStart site c = .ok (cond, after, e))
    (sp : d.spares o site names c = true) :
    ∃ P' cond' after' e', (∀ i k, P i k → P' i k) ∧
      d'.loopStart (site.under o) c = .ok (cond', after', e') ∧ P' cond cond' ∧
      P' after after' ∧ Synced o site P' names e e' := by
  obtain ⟨code, hc, rfl, rfl, rfl⟩ := loopStart_eq_ok.1 hl
  have ho' : d'.fallsThrough = true := h.fallsThrough ▸ ho
  have spawned : Synced o site _ names d.loopSegments d'.loopSegments :=
    (h.spawn "Cond" (by decide)).spawn "AfterCond" (by decide)
  set P' := morePairs (morePairs P d d') (d.spawnFresh "Cond" false).2
    (d'.spawnFresh "Cond" false).2
  have cond : P' d.segments.size d'.segments.size := .inl (.inr ⟨rfl, rfl⟩)
  have after : P' (d.segments.size + 1) (d'.segments.size + 1) :=
    .inr ⟨(size_spawnFresh _ _).symm, (size_spawnFresh _ _).symm⟩
  have new := loopSegments_new site False h.fair.inRange
  have new' := loopSegments_new (site.under o) False h.fair'.inRange
  have entered := spawned.jump (new.open' ho) Straight.nil Straight.nil .nil
    .always cond new.cond.joint new'.cond.joint fun hm => by
      rw [new.muted, ← new.cond.muted, hm]
  have head : Synced o site P' names d.loopHead d'.loopHead :=
    entered.toBoth.switchTo cond (codeAt_loopHead site h.fair.inRange)
      (codeAt_loopHead site h.fair'.inRange)
  have start : LoopStart site False d d.loopHead _ _ := loopHead_start h.fair.inRange ho
  have start' : LoopStart (site.under o) False d' d'.loopHead _ _ :=
    loopHead_start h.fair'.inRange ho'
  obtain ⟨code', hc', -, straight, straight', same⟩ := head.valueCode hs hc sp
  refine ⟨P', _, _, _, fun i k hp => .inl (.inl hp), loopStart_eq_ok.2 ⟨code', hc', rfl, rfl, rfl⟩,
    cond, after, ?_⟩
  exact head.jump start.open' straight straight' same .ifFalse after start.new.joint
    start'.new.joint fun hm => by rw [start.muted, ← start.new.muted, hm]

end

/-! Where control goes on after a block. -/

theorem LoopStart.joins {d₁ d₂ : Draft} {cond after : Nat}
    (start : LoopStart site False d d₁ cond after) (body : Step site False d₁ d₂) :
    d₂.Joins cond where
  joint := start.joint.grows body.grows
  muted hm := by
    rw [body.grows.muted _ start.joint.lt, ← start.current] at hm
    exact body.advances.muted hm

theorem LoopStart.empty {d₁ d₂ : Draft} {cond after : Nat}
    (start : LoopStart site False d d₁ cond after) (body : Step site False d₁ d₂) :
    (d₂.join cond).codeAt after = [] := by
  have apart : after ≠ d₁.current := start.current ▸ start.apart
  exact (start.new.step (body.trans (start.join body)) apart).empty

theorem ArmsStart.joins {d₁ d₂ : Draft} {after : Nat} {segments : List Nat}
    (start : ArmsStart site False d d₁ (after :: segments)) (hr : d.InRange)
    (body : Step site False d₁ d₂) : d₂.Joins after := by
  have apart : after ≠ d₁.current := by
    rw [start.current]
    exact Nat.ne_of_gt (lt_of_lt_of_le hr (start.new after (by simp)).range)
  have new := (start.new after (by simp)).step body apart
  refine ⟨new.joint, fun hm => ?_⟩
  rw [new.muted, ← start.muted] at hm
  exact body.advances.muted hm

/-- The arms are still empty when the `else` block is done. -/
theorem ArmsStart.ready {d₁ d₂ : Draft} {after : Nat} {segments : List Nat} {as : List Arm}
    (start : ArmsStart site False d d₁ (after :: segments)) (hr : d.InRange)
    (hl : segments.length = as.length) (body : Step site False d₁ d₂) :
    (d₂.join after).InRange ∧ (d₂.join after).Ready (.arms after (segments.zip as)) ∧
      IsNew d (d₂.join after) after := by
  obtain ⟨all, new⟩ := start.middle hr body
  exact ⟨all.inRange, ready_arms start.distinct hl new, new after (by simp)⟩

theorem zip_paired {segments segments' : List Nat} (h : List.Forall₂ P segments segments')
    (as : List Arm) : List.Forall₂ (fun x x' : Nat × Arm => P x.1 x'.1 ∧ x'.2 = x.2)
      (segments.zip as) (segments'.zip as) := by
  induction h generalizing as with
  | nil => exact .nil
  | cons hp _ ih =>
    cases as with
    | nil => exact .nil
    | cons a as => exact .cons ⟨hp, rfl⟩ (ih as)

theorem Ready.joins {d₁ : Draft} {after segment : Nat} {a : Arm} {xs : List (Nat × Arm)}
    (ready : d.Ready (.arms after ((segment, a) :: xs)))
    (body : Step site False (d.switchTo segment) d₁) : d₁.Joins after := by
  obtain ⟨joint, -, ready⟩ := ready
  refine ⟨joint.grows (grows_switchTo.trans body.grows), fun hm => ?_⟩
  rw [body.grows.muted _ joint.lt] at hm
  exact body.advances.muted ((ready segment (by simp)).2.2 hm)

/-! Whole tasks. -/

/-- The same task in both drafts, and what the drafts are like when it starts. -/
inductive Starts (o : Options) (site : Site) (P : Nat → Nat → Prop) (names : List String)
    (d d' : Draft) : Task → Task → Prop where
  | block (ss : List Stmt) (h : Synced o site P names d d') :
      Starts o site P names d d' (.block ss) (.block ss)
  | one (s : Stmt) (h : Synced o site P names d d') (ho : d.fallsThrough = true) :
      Starts o site P names d d' (.one s) (.one s)
  | arms {after after' : Nat} {xs xs' : List (Nat × Arm)} (h : Both o site P names d d')
      (ha : P after after') (hx : List.Forall₂ (fun x x' => P x.1 x'.1 ∧ x'.2 = x.2) xs xs')
      (ready : d.Ready (.arms after xs)) (ready' : d'.Ready (.arms after' xs')) :
      Starts o site P names d d' (.arms after xs) (.arms after' xs')

/-- What the drafts are like when a task ends. The trimmed draft may have dropped the rest of a
block. -/
def Comes (o : Options) (site : Site) (P : Nat → Nat → Prop) (names : List String)
    (e e' : Draft) : Task → Prop
  | .block _ => Both o site P names e e' ∧ (P e.current e'.current ∨ Gone o e e')
  | .one _ => Synced o site P names e e'
  | .arms .. => Both o site P names e e'

variable (hs : site.registry.Installed site.builtins)

include hs

theorem Run.trims (unreachable : site.options.trimUnreachableCode = false)
    (useless : site.options.trimUselessCode = false) {t : Task} (run : Run site t d e) :
    ∀ {P : Nat → Nat → Prop} {names names' : List String} {d' : Draft} {t' : Task},
      Starts o site P names d d' t t' → d.Roomy → t.keeps o site names d = some names' →
      ∃ P' e', (∀ i k, P i k → P' i k) ∧ Run (site.under o) t' d' e' ∧
        Comes o site P' names' e e' t := by
  have hs' : (site.under o).registry.Installed (site.under o).builtins := hs
  induction run with
  | done =>
    rintro P names names' d' _ (⟨_, h⟩) - hk
    simp only [Task.keeps, blockKeeps, Option.some.injEq] at hk
    subst hk
    exact ⟨P, d', fun _ _ => id, .done, h.toBoth, .inl h.sync⟩
  | drop ha =>
    cases admits ha with
    | dropped _ _ trim =>
      rw [unreachable] at trim
      cases trim
  | @next d d₁ d₂ d₃ s rest ha one others iho ihr =>
    rintro P names names' d' _ (⟨_, h⟩) roomy hk
    by_cases drops : o.trimUnreachableCode = true ∧ d.isDead = true
    · obtain ⟨on, hd⟩ := drops
      obtain ⟨e', run', both, gone⟩ :=
        h.toBoth.drop hs unreachable on hd (h.isDead.trans hd) (.next ha one others)
      rw [keeps_dead on hd hk]
      exact ⟨P, e', fun _ _ => id, run', both, .inr gone⟩
    · have goesOn (on : o.trimUnreachableCode = true) : d.isDead = false :=
        (Bool.not_eq_true _).mp fun hd => drops ⟨on, hd⟩
      obtain ⟨P₁, d₁', more₁, ha', h₁⟩ := h.admit unreachable goesOn ha
      obtain ⟨names₁, hk₁, hk₂⟩ := keeps_next goesOn ha one.compile_eq_ok hk
      have open₁ := (admit_step False h.fair.inRange ha).2 rfl
      have roomy₁ : d₁.Roomy := roomy.of_locals (admits ha).locals
      obtain ⟨P₂, d₂', more₂, one', h₂⟩ := iho (.one s h₁ open₁) roomy₁ hk₁
      obtain ⟨P₃, d₃', more₃, others', h₃⟩ := ihr (.block rest h₂) (one.roomy roomy₁) hk₂
      exact ⟨P₃, d₃', fun i k hp => more₃ i k (more₂ i k (more₁ i k hp)),
        .next ha' one' others', h₃⟩
  | expr hd =>
    rintro P names names' d' _ (_ | ⟨_, h, ho⟩) - hk
    obtain ⟨e', hd', h'⟩ := h.exprStmt hs ho useless hd hk
    exact ⟨P, e', fun _ _ => id, .expr hd', h'⟩
  | declare hd =>
    rintro P names names' d' _ (_ | ⟨_, h, ho⟩) roomy hk
    obtain ⟨e', hd', h'⟩ := h.declare hd (declare_roomy roomy hd)
    simp only [Task.keeps, stmtKeeps, Option.some.injEq] at hk
    subst hk
    exact ⟨P, e', fun _ _ => id, .declare hd', h'⟩
  | assign hd =>
    rintro P names names' d' _ (_ | ⟨_, h, ho⟩) roomy hk
    obtain ⟨e', hd', h'⟩ := h.assign hs ho hd (assign_roomy roomy hd) hk
    exact ⟨P, e', fun _ _ => id, .assign hd', h'⟩
  | ret hd =>
    rintro P names names' d' _ (_ | ⟨_, h, ho⟩) - hk
    obtain ⟨rfl, sp⟩ := keeps_ret hk
    obtain ⟨e', hd', h'⟩ := h.returnStmt hs ho hd sp
    exact ⟨P, e', fun _ _ => id, .ret hd', h'⟩
  | @loop d d₁ d₂ c body span cond after hl run ih =>
    rintro P names names' d' _ (_ | ⟨_, h, ho⟩) roomy hk
    obtain ⟨sp, hk⟩ := keeps_loop hl hk
    obtain ⟨P₁, cond', after', d₁', more₁, hl', hc, ha, h₁⟩ := h.loopStart hs ho hl sp
    obtain ⟨P₂, d₂', more₂, run', both, mode⟩ :=
      ih (.block _ h₁) (roomy.of_locals (locals_loopStart hl)) hk
    have start : LoopStart site False d d₁ cond after :=
      loopStart_start hs h.fair.inRange ho hl
    have start' : LoopStart (site.under o) False d' d₁' cond' after' :=
      loopStart_start hs' h.fair'.inRange (h.fallsThrough ▸ ho) hl'
    have body : Step site False d₁ d₂ := run_done hs run start.step.inRange trivial False.elim
    have body' : Step (site.under o) False d₁' d₂' :=
      run_done hs' run' start'.step.inRange trivial False.elim
    have joined := both.join mode (more₂ _ _ hc) (start.joins body) (start'.joins body')
    exact ⟨P₂, _, fun i k hp => more₂ i k (more₁ i k hp), .loop hl' run',
      joined.switchTo (more₂ _ _ ha) (start.empty body) (start'.empty body')⟩
  | @cond d d₁ d₂ d₃ first rest otherwise span after segments hc other arms iho iha =>
    rintro P names names' d' _ (_ | ⟨_, h, ho⟩) roomy hk
    obtain ⟨sp, names₁, hk₁, hk₂⟩ := keeps_cond hc other.compile_eq_ok hk
    obtain ⟨P₁, after', segments', d₁', more₁, hc', ha, pairs, h₁⟩ := h.condStart hs ho hc sp
    have roomy₁ : d₁.Roomy := roomy.of_locals (locals_condStart hc)
    obtain ⟨P₂, d₂', more₂, other', both, mode⟩ := iho (.block _ h₁) roomy₁ hk₁
    have start : ArmsStart site False d d₁ (after :: segments) :=
      condStart_start hs h.fair.inRange ho hc
    have start' : ArmsStart (site.under o) False d' d₁' (after' :: segments') :=
      condStart_start hs' h.fair'.inRange (h.fallsThrough ▸ ho) hc'
    have body : Step site False d₁ d₂ := run_done hs other start.step.inRange trivial False.elim
    have body' : Step (site.under o) False d₁' d₂' :=
      run_done hs' other' start'.step.inRange trivial False.elim
    have joined := both.join mode (more₂ _ _ ha) (start.joins h.fair.inRange body)
      (start'.joins h.fair'.inRange body')
    obtain ⟨inRange, ready, new⟩ := start.ready h.fair.inRange (length_condStart hc) body
    obtain ⟨inRange', ready', new'⟩ := start'.ready h.fair'.inRange (length_condStart hc') body'
    obtain ⟨P₃, d₃', more₃, arms', h₃⟩ := iha
      (.arms joined (more₂ _ _ ha) (zip_paired (pairs.imp more₂) _) ready ready')
      ((other.roomy roomy₁).of_locals (locals_join _ _)) hk₂
    have filled : ArmsDone site False _ d₃ after _ := run_done hs arms inRange ready False.elim
    have filled' : ArmsDone (site.under o) False _ d₃' after' _ :=
      run_done hs' arms' inRange' ready' False.elim
    exact ⟨P₃, _, fun i k hp => more₃ i k (more₂ i k (more₁ i k hp)), .cond hc' other' arms',
      h₃.switchTo (more₃ _ _ (more₂ _ _ ha)) (start.empty (length_condStart hc) new filled)
        (start'.empty (length_condStart hc') new' filled')⟩
  | noArms =>
    rintro P names names' d' _ (_ | _ | ⟨h, ha, hx, -, -⟩) - hk
    cases hx
    simp only [Task.keeps, List.map_nil, armsKeep, Option.some.injEq] at hk
    subst hk
    exact ⟨P, d', fun _ _ => id, .noArms, h⟩
  | @arm d d₁ d₂ after segment a xs run others ih iht =>
    rintro P names names' d' _ (_ | _ | ⟨h, ha, hx, ready, ready'⟩) roomy hk
    obtain ⟨names₁, hk₁, hk₂⟩ := keeps_arm run.compile_eq_ok hk
    cases hx with
    | @cons _ x' _ xs' hx hxs =>
    obtain ⟨segment', a'⟩ := x'
    obtain ⟨hp, rfl⟩ := hx
    obtain ⟨lt, empty, -⟩ := ready.2.2 segment (by simp)
    obtain ⟨lt', empty', -⟩ := ready'.2.2 segment' (by simp)
    obtain ⟨P₁, d₁', more₁, run', both, mode⟩ :=
      ih (.block _ (h.switchTo hp empty empty')) roomy hk₁
    have body : Step site False (d.switchTo segment) d₁ := run_done hs run lt trivial False.elim
    have body' : Step (site.under o) False (d'.switchTo segment') d₁' :=
      run_done hs' run' lt' trivial False.elim
    have joined := both.join mode (more₁ _ _ ha) (ready.joins body) (ready'.joins body')
    have roomy₁ : d₁.Roomy := run.roomy roomy
    obtain ⟨P₂, d₂', more₂, others', h₂⟩ := iht
      (.arms joined (more₁ _ _ ha) (hxs.imp fun _ _ hx => ⟨more₁ _ _ hx.1, hx.2⟩)
        (ready.nextArms body).2 (ready'.nextArms body').2)
      (roomy₁.of_locals (locals_join _ _)) hk₂
    exact ⟨P₂, d₂', fun i k hp => more₂ i k (more₁ i k hp), .arm run' others', h₂⟩

end ClassAsm.Draft
