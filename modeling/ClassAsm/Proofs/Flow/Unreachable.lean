import ClassAsm.Proofs.Flow.Reach

/-! What a report of unreachable code says. The reported statement and all in it go to muted
segments, which stay muted, so nothing in them is reachable and nothing in them is reported
again. -/

namespace ClassAsm

namespace Draft

variable {site : Site} {d d' x y : Draft} {t t' : Task}

/-- Meeting the statement gives a warning about unreachable code. -/
def ReportsAt (site : Site) (x : Draft) (s : Stmt) : Prop :=
  (x.admit? site s.span).1.warnings = x.warnings.push ⟨.unreachableCode, some s.span⟩

/-- Only code that is neither running nor muted is reported, and what is emitted for it is muted. -/
theorem ReportsAt.muted {s : Stmt} (h : ReportsAt site x s) :
    x.isMutedHere = false ∧
      ∀ x₁, x.admit? site s.span = (x₁, true) → x₁.isMutedHere = true := by
  have nochange : x.warnings ≠ x.warnings.push ⟨.unreachableCode, some s.span⟩ := fun e => by
    have := congrArg Array.size e
    simp at this
  unfold ReportsAt at h
  rcases ha : x.admit? site s.span with ⟨x₁, b⟩
  rw [ha] at h
  cases admits ha with
  | running | muted | mutedFresh => exact absurd h nochange
  | dropped hd hm trim => exact ⟨hm, fun _ e => by cases e⟩
  | kept hd hm trim =>
    refine ⟨hm, ?_⟩
    intro _ e
    cases e
    exact isMutedHere_enterUnreachable

theorem isMuted_of_codeAt_ne {known : Prop} (h : Step site known x y) (hm : x.isMutedHere = true)
    {i : Nat} (hne : y.codeAt i ≠ x.codeAt i) :
    i < y.segments.size ∧ (y.segment i).isMuted = true := by
  have hy : i < y.segments.size := by
    by_contra hi
    rw [codeAt_of_size_le (not_lt.1 hi),
      codeAt_of_size_le (h.grows.size.trans (not_lt.1 hi))] at hne
    exact hne rfl
  refine ⟨hy, ?_⟩
  by_cases hx : i < x.segments.size
  · have hc : i = x.current := by
      by_contra hc
      exact hne (h.advances.keeps.code i hx hc)
    rw [h.grows.muted i hx, hc]
    exact hm
  · exact h.advances.newMuted hm i (not_lt.1 hx) hy

/-! Tasks in a body that compiles. -/

/-- The task compiles, and its draft is part of the final one. -/
structure Visited (site : Site) (d : Draft) (t : Task) (x : Draft) : Prop where
  inRange : x.InRange
  ready : x.Ready t
  compiles : ∃ y, t.compile site x = .ok y ∧ Grows y d

def Hushed (x : Draft) : Task → Prop
  | .block _ | .one _ => x.isMutedHere = true
  | .arms after _ => (x.segment after).isMuted = true

variable (hs : site.registry.Installed site.builtins)

include hs in
theorem Visited.done (h : Visited site d t x) (hc : t.compile site x = .ok y) :
    Done site False x y t :=
  run_done hs (run_iff.2 hc) h.inRange h.ready False.elim

include hs in
theorem block_eq_ok {s : Stmt} {rest : List Stmt} {x₁ : Draft}
    (ha : x.admit? site s.span = (x₁, true)) (hr : x.InRange)
    (h : x.stmts site (s :: rest) = .ok y) :
    ∃ x₂, x₁.stmt site s = .ok x₂ ∧ x₂.stmts site rest = .ok y ∧ Step site False x x₁ ∧
      x₁.fallsThrough = true ∧ Step site False x₁ x₂ ∧ Step site False x₂ y := by
  simp only [stmts, ha, if_true, bind_eq_ok] at h
  obtain ⟨x₂, hone, hrest⟩ := h
  obtain ⟨admitted, ho⟩ := admit_step False hr ha
  have one : Step site False x₁ x₂ :=
    run_done hs (run_one s hone) admitted.inRange (ho rfl) False.elim
  have tail : Step site False x₂ y :=
    run_done hs (run_block rest hrest) one.inRange trivial False.elim
  exact ⟨x₂, hone, hrest, admitted, ho rfl, one, tail⟩

/-- A condition between its `else` block and its arms. -/
structure CondParts (site : Site) (x d₁ d₂ y : Draft) (after : Nat) (xs : List (Nat × Arm)) : Prop
    where
  start : Step site False x d₁
  startMuted : d₁.isMutedHere = x.isMutedHere
  all : Step site False x (d₂.join after)
  ready : (d₂.join after).Ready (.arms after xs)
  muted : ((d₂.join after).segment after).isMuted = x.isMutedHere
  arms : ∃ d₃, (Task.arms after xs).compile site (d₂.join after) = .ok d₃ ∧ Grows d₃ y
  grows : Grows d₂ y

include hs in
theorem cond_eq_ok {first : Arm} {rest : List Arm} {otherwise : Option Block} {span : Span}
    {after : Nat} {segments : List Nat} {d₁ : Draft} (hr : x.InRange) (ho : x.fallsThrough = true)
    (hst : x.condStart site (first :: rest) = .ok (after, segments, d₁))
    (h : x.stmt site (.cond first rest otherwise span) = .ok y) :
    ∃ d₂, d₁.stmts site (elseStmts otherwise) = .ok d₂ ∧
      CondParts site x d₁ d₂ y after (segments.zip (first :: rest)) := by
  simp only [stmt_cond, hst, ok_bind, bind_eq_ok, Except.ok.injEq] at h
  obtain ⟨d₂, hb, d₃, harms, rfl⟩ := h
  have start : ArmsStart site False x d₁ _ := condStart_start hs hr ho hst
  have inner : Step site False d₁ d₂ :=
    run_done hs (run_block _ hb) start.step.inRange trivial False.elim
  obtain ⟨all, new⟩ := start.middle hr inner
  have hl := length_condStart hst
  have ready := ready_arms start.distinct hl new
  have hc : (Task.arms after (segments.zip (first :: rest))).compile site (d₂.join after) =
      .ok d₃ := by
    rw [Task.compile, List.map_fst_zip hl.le, List.map_snd_zip hl.ge]
    exact harms
  have filled : ArmsDone site False (d₂.join after) d₃ after _ :=
    run_done hs (run_iff.2 hc) all.inRange ready False.elim
  have hlt : after < d₂.segments.size :=
    (start.new after (by simp)).joint.lt.trans_le inner.grows.size
  exact ⟨d₂, hb,
    { start := start.step
      startMuted := start.muted
      all := all
      ready := ready
      muted := (new after (by simp)).muted
      arms := ⟨d₃, hc, grows_switchTo⟩
      grows := ((grows_join inner.inRange hlt).trans filled.keeps.grows).trans grows_switchTo }⟩

include hs in
/-- What a task leads to compiles as well, later, and is muted if the task is. -/
theorem Visited.leads (h : Visited site d t x) (hl : Leads site (t, x) (t', y)) :
    Visited site d t' y ∧ Grows x y ∧ (x.Hushed t → y.Hushed t') := by
  obtain ⟨z, hz, hg⟩ := h.compiles
  have hr := h.inRange
  cases hl with
  | @first _ _ s rest ha =>
    obtain ⟨x₂, hone, -, admitted, ho, one, tail⟩ := block_eq_ok hs ha hr hz
    exact ⟨⟨admitted.inRange, ho, x₂, hone, tail.grows.trans hg⟩, admitted.grows,
      admitted.advances.muted⟩
  | @rest _ x₁ x₂ s rest ha hone =>
    obtain ⟨x₂', hone', hrest, admitted, -, one, -⟩ := block_eq_ok hs ha hr hz
    rw [hone] at hone'
    cases hone'
    have both := admitted.trans one
    exact ⟨⟨both.inRange, trivial, z, hrest, hg⟩, both.grows, both.advances.muted⟩
  | @body _ _ c body span cond after hst =>
    have start : LoopStart site False x y cond after := loopStart_start hs hr h.ready hst
    simp only [Task.compile, stmt_loop, hst, ok_bind, bind_eq_ok, Except.ok.injEq] at hz
    obtain ⟨x₂, hb, rfl⟩ := hz
    have inner : Step site False y x₂ :=
      run_done hs (run_block _ hb) start.step.inRange trivial False.elim
    have join := start.join inner
    exact ⟨⟨start.step.inRange, trivial, x₂, hb, (join.grows.trans grows_switchTo).trans hg⟩,
      start.step.grows, fun hm => start.muted.trans hm⟩
  | otherwise hst =>
    rw [Task.compile] at hz
    obtain ⟨d₂, hb, parts⟩ := cond_eq_ok hs hr h.ready hst hz
    exact ⟨⟨parts.start.inRange, trivial, d₂, hb, parts.grows.trans hg⟩, parts.start.grows,
      fun hm => parts.startMuted.trans hm⟩
  | arms hst hb =>
    rw [Task.compile] at hz
    obtain ⟨d₂, hb', parts⟩ := cond_eq_ok hs hr h.ready hst hz
    rw [hb] at hb'
    cases hb'
    obtain ⟨d₃, hc, hg'⟩ := parts.arms
    exact ⟨⟨parts.all.inRange, parts.ready, d₃, hc, hg'.trans hg⟩, parts.all.grows,
      fun hm => parts.muted.trans hm⟩
  | @arm _ after segment a xs =>
    obtain ⟨lt, -, hm⟩ := h.ready.2.2 segment (by simp)
    simp only [Task.compile, List.map_cons, arms, arm_eq, bind_eq_ok, Except.ok.injEq] at hz
    obtain ⟨_, ⟨d₁, hb, rfl⟩, hrest⟩ := hz
    have inner : Step site False (x.switchTo segment) d₁ :=
      run_done hs (run_block _ hb) lt trivial False.elim
    obtain ⟨all, ready⟩ := h.ready.nextArms inner
    have filled : ArmsDone site False (d₁.join after) z after _ :=
      run_done hs (t := .arms after xs) (run_iff.2 hrest) all.inRange ready False.elim
    have hlt : after < d₁.segments.size := h.ready.1.lt.trans_le inner.grows.size
    have grows := (grows_join inner.inRange hlt).trans filled.keeps.grows
    exact ⟨⟨lt, trivial, d₁, hb, grows.trans hg⟩,
      grows_switchTo, hm⟩
  | @nextArms _ d₁ after segment a xs hb =>
    obtain ⟨lt, -, hm⟩ := h.ready.2.2 segment (by simp)
    simp only [Task.compile, List.map_cons, arms, arm_eq, hb, ok_bind] at hz
    have inner : Step site False (x.switchTo segment) d₁ :=
      run_done hs (run_block _ hb) lt trivial False.elim
    obtain ⟨all, ready⟩ := h.ready.nextArms inner
    refine ⟨⟨all.inRange, ready, z, hz, hg⟩, grows_switchTo.trans all.grows, ?_⟩
    intro hm
    exact (all.grows.muted _ h.ready.1.lt).trans hm

include hs in
theorem Visited.leadsAll {p q : Task × Draft} (h : Visited site d p.1 p.2)
    (hl : Relation.ReflTransGen (Leads site) p q) :
    Visited site d q.1 q.2 ∧ (p.2.Hushed p.1 → q.2.Hushed q.1) := by
  induction hl with
  | refl => exact ⟨h, id⟩
  | tail _ hl ih =>
    obtain ⟨visited, -, hushed⟩ := ih.1.leads hs hl
    exact ⟨visited, hushed ∘ ih.2⟩

include hs in
theorem Visited.not_reportsAt {s u : Stmt} {rest us : List Stmt}
    (h : Visited site d (.block (s :: rest)) x) (hrep : ReportsAt site x s)
    (hl : Relation.TransGen (Leads site) (.block (s :: rest), x) (.block (u :: us), y)) :
    ¬ ReportsAt site y u := by
  obtain ⟨⟨t, z⟩, first, more⟩ := Relation.TransGen.head'_iff.1 hl
  have visited := (h.leads hs first).1
  have hushed : z.Hushed t := by
    obtain ⟨_, hz, -⟩ := h.compiles
    cases first with
    | first ha => exact hrep.muted.2 _ ha
    | rest ha hone =>
      obtain ⟨_, hone', -, -, -, one, -⟩ := block_eq_ok hs ha h.inRange hz
      rw [hone] at hone'
      cases hone'
      exact one.advances.muted (hrep.muted.2 _ ha)
  have muted : y.isMutedHere = true := (visited.leadsAll hs more).2 hushed
  intro hu
  rw [hu.muted.1] at muted
  cases muted

/-! Reachable segments are the live ones. -/

theorem Shaped.reachable_iff {low : Nat} {before : Array Warning} (shaped : Shaped low d)
    (lit : Lit site before d) (hr : d.InRange) {i : Nat} (hi : i < d.segments.size) :
    Reachable (d.finished site) (d.segment i).name ↔ (d.segment i).isLive = true := by
  have positive : 0 < d.segments.size := Nat.zero_lt_of_lt hr
  have live {n : String} (h : Reachable (d.finished site) n) :
      ∃ k < d.segments.size, (d.segment k).name = n ∧ (d.segment k).isLive = true := by
    induction h with
    | start => exact ⟨0, positive, shaped.first, lit.first⟩
    | branch _ hs hx hl ih =>
      obtain ⟨k, hk, hn, hlive⟩ := ih
      obtain ⟨j, hj, rfl⟩ := List.mem_map.1 hs
      obtain rfl := shaped.distinct k hk j (mem_kept.1 hj).1 hn
      rcases List.mem_append.1 hx with hx | hx
      · exact lit.flows k hlive _ hx _ hl
      · exact ⟨k, hk, (target?_closing hx hl).symm, hlive⟩
  constructor
  · intro h
    obtain ⟨k, hk, hn, hlive⟩ := live h
    rwa [← shaped.distinct k hk i hi hn]
  · intro h
    have led := lit.led i h
    clear h hi
    induction led with
    | start => rw [shaped.first]; exact .start
    | @branch i j x hled hx hl hi ih =>
      have kept : j ∈ d.kept := by
        refine mem_kept.2 ⟨?_, ?_⟩
        · by_contra hj
          rw [codeAt_of_size_le (not_lt.1 hj)] at hx
          cases hx
        · by_contra hu
          rw [(isUnused_iff.1 ((Bool.not_eq_false _).mp hu)).1] at hx
          cases hx
      exact .branch (s := d.closed site j) ih (List.mem_map_of_mem kept)
        (List.mem_append_left _ hx) hl

theorem Lit.live_of_unmuted {before : Array Warning} (lit : Lit site before d)
    (h : ∀ k, (d.segment k).isMuted = false) {i : Nat} (hi : i ∈ d.kept) :
    (d.segment i).isLive = true := by
  have hu := (mem_kept.1 hi).2
  by_contra hl
  refine Bool.eq_false_iff.1 hu (isUnused_iff.2 ⟨?_, ?_, ?_⟩)
  · by_contra hc
    rcases lit.awake i hc with hl' | hm
    · exact hl hl'
    · rw [h i] at hm
      cases hm
  · rintro rfl
    exact hl lit.first
  · by_contra ht
    rcases lit.dark i ((Bool.not_eq_false _).mp ht) with hl' | ⟨k, hm⟩
    · exact hl hl'
    · rw [h k] at hm
      cases hm

end Draft

namespace Job

open Draft

/-- The statement is emitted, which makes the second draft of the first. -/
def EmitsTo (j : Job) (x : Draft) (s : Stmt) (y : Draft) : Prop :=
  ∃ x₁, x.admit? j.site s.span = (x₁, true) ∧ x₁.stmt j.site s = .ok y

/-- What the warnings about unreachable code tell of a compiled method. -/
structure Tells (j : Job) (m : Method) (warnings : Array Warning) : Prop where
  /-- The code of a reported statement is out of reach. -/
  reported : ∀ {s rest x}, j.Visits (.block (s :: rest)) x → ReportsAt j.site x s →
    (x.admit? j.site s.span).2 = true → ∃ y, j.EmitsTo x s y ∧
      ∀ i, y.codeAt i ≠ x.codeAt i → ¬ Reachable m.segments (y.segment i).name
  /-- Without a report all code is in reach. -/
  silent : ¬ Reported j.warnings warnings → ∀ s ∈ m.segments, Reachable m.segments s.name
  /-- Where unreachable code is left out, all code is in reach. -/
  trimmed : j.site.options.trimUnreachableCode = true →
    ∀ s ∈ m.segments, Reachable m.segments s.name
  /-- No report is inside or after another. -/
  once : ∀ {s rest x u us y}, j.Visits (.block (s :: rest)) x → ReportsAt j.site x s →
    Relation.TransGen (Leads j.site) (.block (s :: rest), x) (.block (u :: us), y) →
    ¬ ReportsAt j.site y u

variable {j : Job} {d x y : Draft} {m : Method} {labels : Nat} {warnings : Array Warning}

theorem Gives.visited {known : Prop} (hs : j.site.registry.Installed j.site.builtins)
    (h : j.Gives known d m labels warnings) {t : Task} (hv : j.Visits t x) :
    Visited j.site d t x := by
  obtain ⟨d₀, hop, hl⟩ := hv
  obtain ⟨d₀', d₁, hop', hr, -, hb, hg, -⟩ := h.opened
  rw [hop] at hop'
  cases hop'
  have start : Visited j.site d (.block j.stmts) d₀ := ⟨hr, trivial, d₁, hb, hg⟩
  exact (start.leadsAll hs hl).1

theorem Gives.emitsTo {known : Prop} (hs : j.site.registry.Installed j.site.builtins)
    (h : j.Gives known d m labels warnings) {s : Stmt} {rest : List Stmt}
    (hv : j.Visits (.block (s :: rest)) x) (hrep : ReportsAt j.site x s)
    (hadm : (x.admit? j.site s.span).2 = true) :
    ∃ y, j.EmitsTo x s y ∧
      ∀ i, y.codeAt i ≠ x.codeAt i → ¬ Reachable m.segments (y.segment i).name := by
  have ha : x.admit? j.site s.span = ((x.admit? j.site s.span).1, true) := by rw [← hadm]
  have visited := ((h.visited hs hv).leads hs (.first ha)).1
  obtain ⟨y, hone, hg⟩ := visited.compiles
  have step : Step j.site False (x.admit? j.site s.span).1 y := visited.done hs hone
  refine ⟨y, ⟨_, ha, hone⟩, ?_⟩
  intro i hne hreach
  rw [← (admits ha).codeAt i] at hne
  obtain ⟨hlt, hm⟩ := isMuted_of_codeAt_ne step (hrep.muted.2 _ ha) hne
  have lit := lit_of_edits h.step.edits
  rw [← hg.muted i hlt] at hm
  rw [h.segments, ← hg.name i hlt,
    h.shaped.reachable_iff lit h.step.inRange (hlt.trans_le hg.size), lit.apart i hm] at hreach
  cases hreach

theorem Gives.reachable {known : Prop} (h : j.Gives known d m labels warnings)
    (unmuted : ∀ k, (d.segment k).isMuted = false) :
    ∀ s ∈ m.segments, Reachable m.segments s.name := by
  intro s hs
  have lit := lit_of_edits h.step.edits
  rw [h.segments] at hs ⊢
  obtain ⟨i, hi, rfl⟩ := List.mem_map.1 hs
  exact (h.shaped.reachable_iff lit h.step.inRange (mem_kept.1 hi).1).2
    (lit.live_of_unmuted unmuted hi)

end Job

namespace Program

open Draft

theorem reports_of_unreachable_code {options : Options} {items : List Item} {j : Job}
    (hj : j ∈ jobs options items) (on : options.muteUnreachableCode = false) {m : Method}
    {labels : Nat} {warnings : Array Warning} (h : j.compile = .ok (m, labels, warnings)) :
    j.Tells m warnings := by
  have hs := installed_of_mem_jobs hj
  obtain ⟨_, -, held⟩ := holds_of_mem_jobs hj
  obtain ⟨d, hd⟩ := Job.gives False hs False.elim h
  have lit : Lit j.site j.warnings d := lit_of_edits hd.step.edits
  refine ⟨fun hv hrep hadm => hd.emitsTo hs hv hrep hadm, ?_, ?_,
    fun hv hrep hl => (hd.visited hs hv).not_reportsAt hs hrep hl⟩
  · intro silent
    apply hd.reachable
    intro k
    by_contra hm
    have told := (lit.told k ((Bool.not_eq_false _).mp hm)).2 (by rw [held.options]; exact on)
    rw [← hd.warnings] at told
    exact silent told
  · intro trim
    apply hd.reachable
    intro k
    by_contra hm
    have kept := (lit.told k ((Bool.not_eq_false _).mp hm)).1
    rw [trim] at kept
    cases kept

theorem reports_of_unreachable_code_meter : ∃ j ∈ jobs {} meter, ∃ m labels warnings,
    j.compile = .ok (m, labels, warnings) ∧ j.Tells m warnings := by
  obtain ⟨j, mem, m, labels, warnings, h⟩ := exists_job_meter
  exact ⟨j, mem, m, labels, warnings, h, reports_of_unreachable_code mem rfl h⟩

end Program
end ClassAsm
