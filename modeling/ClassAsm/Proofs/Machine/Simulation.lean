import ClassAsm.Proofs.Machine.Statements

/-! Running statements one after the other. The machine follows a block from where control can come
to it, through all segments that its statements fill. The induction is on the run of the
compiler. -/

namespace ClassAsm.Draft

variable {V E : Type} {D x y : Draft} {low : Nat} {c : Context} {M : Meaning V E} {args : List V}
  (fits : c.Fits D.locals)

theorem exec_cond (n : Nat) (first : Arm) (rest : List Arm) (otherwise : Option Block)
    (span : Span) :
    c.exec M n (.cond first rest otherwise span) =
      c.execArms M n (c.execBlock M n (elseStmts otherwise)) (first :: rest) := by
  obtain ⟨e, ⟨body, _⟩, _⟩ := first
  have none : c.execBlock M n [] = .next := funext fun s => by rw [Context.execBlock]
  funext s
  rcases otherwise with _ | ⟨_, _⟩
  · rw [Context.exec, Context.execArms, elseStmts, none]
  · rw [Context.exec, Context.execArms, elseStmts]
    rfl

theorem usesNumbers_cond {first : Arm} {rest : List Arm} {otherwise : Option Block} {span : Span}
    (h : c.stmtUsesNumbers (.cond first rest otherwise span) = true) :
    c.armsUseNumbers (first :: rest) = true ∧ c.blockUsesNumbers (elseStmts otherwise) = true := by
  obtain ⟨e, ⟨body, _⟩, _⟩ := first
  rcases otherwise with _ | ⟨_, _⟩
  · exact ⟨h, rfl⟩
  · exact Bool.and_eq_true_iff.1 h

/-- The machine follows a task from where control can come to it. -/
def Follows (D : Draft) (c : Context) (M : Meaning V E) (args : List V) (n : Nat) :
    Task → Draft → Draft → Prop
  | .block ss, x, y => c.blockUsesNumbers ss = true → x.isDead = false →
    D.GoesFrom c M args n (D.rest c.site x) (y.isDead = false) (D.rest c.site y)
      (c.execBlock M n ss)
  | .one stmt, x, y => c.stmtUsesNumbers stmt = true → x.isDead = false →
    D.GoesFrom c M args n (D.rest c.site x) (y.isDead = false) (D.rest c.site y) (c.exec M n stmt)
  | .arms after xs, x, y => (∀ p ∈ xs, c.blockUsesNumbers p.2.body.stmts = true) →
    ∀ p ∈ xs, (x.segment p.1).isLive = true →
      D.GoesFrom c M args n (D.closed c.site p.1).code ((y.segment after).isLive = true)
        (D.closed c.site after).code (c.execBlock M n p.2.body.stmts)

include fits in
theorem goes_cond (shaped : Shaped low D) (hr : x.InRange) (hd : x.isDead = false) {first : Arm}
    {rest : List Arm} {otherwise : Option Block} {span : Span} {after n : Nat} {segments : List Nat}
    {x₁ x₂ : Draft} (h : x.condStart c.site (first :: rest) = .ok (after, segments, x₁))
    (body : Step c.site False x₁ x₂)
    (arms : ArmsDone c.site False (x₂.join after) y after
      ((segments.zip (first :: rest)).map Prod.fst))
    (hg : Grows y D) (hu : c.stmtUsesNumbers (.cond first rest otherwise span) = true)
    (hother : D.Follows c M args n (.block (elseStmts otherwise)) x₁ x₂)
    (harms : D.Follows c M args n (.arms after (segments.zip (first :: rest))) (x₂.join after) y) :
    D.GoesFrom c M args n (D.rest c.site x) ((y.switchTo after).isDead = false)
      (D.rest c.site (y.switchTo after)) (c.exec M n (.cond first rest otherwise span)) := by
  obtain ⟨huArms, huOther⟩ := usesNumbers_cond hu
  have uses := Context.usesNumbers_of_arms huArms
  have hl := length_condStart h
  have start : ArmsStart c.site False x x₁ (after :: segments) :=
    condStart_start fits.installed hr (fallsThrough_of_running hd) h
  obtain ⟨all, new⟩ := start.middle hr body
  have empty : y.codeAt after = [] := start.empty hl (new after (by simp)) arms
  have lt : after < x₂.segments.size :=
    (start.new after (by simp)).joint.lt.trans_le body.grows.size
  have hg₂ : Grows (x₂.join after) D := arms.keeps.grows.trans hg
  have hg₁ : Grows x₁ D := (body.grows.trans (grows_join body.inRange lt)).trans hg₂
  have alive (hlive : (y.segment after).isLive = true) : (y.switchTo after).isDead = false :=
    isDead_eq_false_iff.2 ⟨isTerminated_of_empty empty, hlive⟩
  have behind : D.rest c.site (y.switchTo after) = (D.closed c.site after).code :=
    rest_of_empty empty
  obtain ⟨rfl, hc⟩ := condStart_eq_ok.1 h
  have hr₀ := hr.spawnFresh "AfterCond" false
  have hd₀ : (x.spawnFresh "AfterCond" false).2.isDead = false := by
    rw [isDead_spawnFresh hr, hd]
  obtain ⟨hd₁, lives⟩ := conditions_running fits hr₀ hd₀ hc
  rw [exec_cond, behind, ← rest_spawnFresh "AfterCond" false]
  refine goes_conditions fits shaped hr₀ hd₀ hc hg₁ (fun a ha => (uses a ha).1) (fun p hp => ?_) ?_
  · have live : ((x₂.join x.segments.size).segment p.1).isLive = true :=
      (body.grows.trans (grows_join body.inRange lt)).live _ (lives _ (List.of_mem_zip hp).1)
    intro s slots hs
    exact (harms (fun q hq => (uses _ (List.of_mem_zip hq).2).2) p hp live s slots hs).onward alive
      fun _ slots w => ⟨0, rfl⟩
  · intro s slots hs
    exact (hother huOther hd₁ s slots hs).onward
      (fun hd₂ => alive (arms.keeps.grows.live _ (live_join hd₂ lt)))
      fun hd₂ slots w => ⟨1, next_of_join shaped body.inRange hd₂ lt hg₂ slots w⟩

include fits in
/-- The main statement of this module, with one case for each rule of a run. -/
theorem run_follows (shaped : Shaped low D) (trim : c.site.options.trimUselessCode = false)
    (n : Nat) {t : Task} (h : Run c.site t x y) :
    x.InRange → x.Ready t → Grows y D → D.Follows c M args n t x y := by
  have hs := fits.installed
  induction h with
  | done =>
    intro _ _ _ _ hd s slots hs
    rw [Context.execBlock]
    exact ⟨hd, 0, slots, hs, rfl⟩
  | drop h =>
    intro _ _ _ _ hd
    cases admits h with
    | dropped dead =>
      rw [hd] at dead
      cases dead
  | @next x x₁ x₂ y st rest h hone hrest ihone ihrest =>
    intro hr _ hg hu hd
    obtain ⟨hst, hothers⟩ := Bool.and_eq_true_iff.1 hu
    cases admits h with
    | muted dead | mutedFresh dead | kept dead =>
      rw [hd] at dead
      cases dead
    | running =>
      have ho := fallsThrough_of_running hd
      have one : Step c.site False x x₂ := run_done hs hone hr ho False.elim
      have others : Step c.site False x₂ y := run_done hs hrest one.inRange trivial False.elim
      have first := ihone hr ho (others.grows.trans hg) hst hd
      have second := ihrest one.inRange trivial hg hothers
      intro s slots hs
      rw [Context.execBlock]
      exact (first s slots hs).andThen second
  | expr h =>
    intro hr ho hg hu hd
    have one : Step c.site False _ _ := run_done hs (.expr h) hr ho False.elim
    exact goes_exprStmt fits trim hr hd (one.grows.trans hg) hg h hu
  | declare h => exact fun _ _ _ _ hd => goes_declare hd h
  | assign h =>
    intro hr ho hg hu hd
    have one : Step c.site False _ _ := assigned_step hs hr ho (assign_emits h)
    exact goes_assigned fits hr hd (one.grows.trans hg) hg (assign_emits h) hu
  | ret h =>
    intro hr ho hg hu _
    have one : Step c.site False _ _ := returnStmt_step hs hr ho False.elim h
    exact goes_returnStmt fits hr (one.grows.trans hg) hg h hu
  | @loop x x₁ x₂ e body span cond after h hb ih =>
    intro hr ho hg hu hd
    obtain ⟨body, _⟩ := body
    obtain ⟨hue, hub⟩ := Bool.and_eq_true_iff.1 hu
    have start : LoopStart c.site False x x₁ cond after := loopStart_start hs hr ho h
    have inner : Step c.site False x₁ x₂ := run_done hs hb start.step.inRange trivial False.elim
    have hg' : Grows (x₂.join cond) D := grows_switchTo.trans hg
    have hg₂ : Grows x₂ D := (start.join inner).grows.trans hg'
    have hd₁ := (loopStart_running fits hr hd h).1
    have turn := ih start.step.inRange trivial hg₂ hub hd₁
    intro s slots hs
    rw [Context.exec]
    exact goes_loop fits shaped hr hd h inner hg' hue turn s slots hs
  | @cond x x₁ x₂ y first rest otherwise span after segments h ho' ha iho iha =>
    intro hr ho hg hu hd
    have hg' : Grows y D := grows_switchTo.trans hg
    have start : ArmsStart c.site False x x₁ (after :: segments) := condStart_start hs hr ho h
    have body : Step c.site False x₁ x₂ := run_done hs ho' start.step.inRange trivial False.elim
    obtain ⟨all, new⟩ := start.middle hr body
    have ready := ready_arms start.distinct (length_condStart h) new
    have arms : ArmsDone c.site False (x₂.join after) y after _ :=
      run_done hs ha all.inRange ready False.elim
    have lt : after < x₂.segments.size :=
      (start.new after (by simp)).joint.lt.trans_le body.grows.size
    have hg₂ : Grows x₂ D := (grows_join body.inRange lt).trans (arms.keeps.grows.trans hg')
    exact goes_cond fits shaped hr hd h body arms hg' hu (iho start.step.inRange trivial hg₂)
      (iha all.inRange ready hg')
  | noArms =>
    intro _ _ _ _ _ hp
    cases hp
  | @arm x x₁ y after segment a xs h ht ih iht =>
    intro _ ready hg hu p hp live
    obtain ⟨lt, empty, -⟩ := ready.2.2 segment (by simp)
    have body : Step c.site False (x.switchTo segment) x₁ := run_done hs h lt trivial False.elim
    obtain ⟨all, readyRest⟩ := ready.nextArms body
    have others : ArmsDone c.site False (x₁.join after) y after _ :=
      run_done hs (t := .arms after xs) ht all.inRange readyRest False.elim
    have hlt : after < x₁.segments.size := ready.1.lt.trans_le body.grows.size
    have hg₁ : Grows (x₁.join after) D := others.keeps.grows.trans hg
    rcases List.mem_cons.1 hp with rfl | hp
    · have hd : (x.switchTo segment).isDead = false :=
        isDead_eq_false_iff.2 ⟨isTerminated_of_empty empty, live⟩
      have whole : D.rest c.site (x.switchTo segment) = (D.closed c.site segment).code :=
        rest_of_empty empty
      have follows := ih lt trivial ((grows_join body.inRange hlt).trans hg₁)
        (hu _ List.mem_cons_self) hd
      rw [whole] at follows
      intro s slots hs
      exact (follows s slots hs).onward
        (fun hd₁ => others.keeps.grows.live _ (live_join hd₁ hlt))
        fun hd₁ slots w => ⟨1, next_of_join shaped body.inRange hd₁ hlt hg₁ slots w⟩
    · exact iht all.inRange readyRest hg (fun q hq => hu q (List.mem_cons_of_mem _ hq)) p hp
        (all.grows.live _ live)

end ClassAsm.Draft
