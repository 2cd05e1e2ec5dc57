import ClassAsm.Proofs.Method.Emits
import ClassAsm.Proofs.Method.Step

/-! The main statement of this folder: compiling a block is a chain of edits that advances the
draft. It is proved along the run, one case for each rule. -/

namespace ClassAsm.Draft

open Scope (Leaves LeavesOne Tame)

variable {site : Site} {known : Prop} {d d' : Draft}

/-- The value of an expression statement or of a return leaves what its type says. -/
def TameStmt (site : Site) (d : Draft) : Stmt → Prop
  | .expr e | .ret (some e) _ =>
    ∀ c, (site.scope d.locals).code e = .ok c → (site.scope d.locals).Tame e c.type
  | _ => True

/-- So it is for every statement that a task leads to. -/
def AllTame (site : Site) (t : Task) (d : Draft) : Prop :=
  ∀ s x, Relation.ReflTransGen (Leads site) (t, d) (.one s, x) → TameStmt site x s

theorem AllTame.leads {t t' : Task} (h : AllTame site t d) (hl : Leads site (t, d) (t', d')) :
    AllTame site t' d' :=
  fun s x hx => h s x (hx.head hl)

/-! Statements without blocks. -/

variable (hs : site.registry.Installed site.builtins)

include hs in
theorem assigned_step (hr : d.InRange) (ho : d.fallsThrough = true) {name : String} {e : Expr}
    {typeName : Option String} (h : Assigned site d name e typeName d') :
    Step site known d d' := by
  cases h with
  | toStatic hl hf hst hc ht =>
    exact step_code hr ho
      ((Scope.valueCode_leaves hs hc).then (Straight.one rfl) fun _ => Moves.one (.stsfld _))
  | toInstance hl hf hst hrec hc ht =>
    have hv := Scope.valueCode_leaves hs hc
    refine step_code hr ho ⟨((Straight.one rfl).append hv.straight).append (Straight.one rfl), ?_⟩
    intro
    exact ((Moves.one (.ldarg 0)).append ((hv.moves trivial).frame 1)).append
      (Moves.one (.stfld _))
  | through hl ha hc ht =>
    have hv := Scope.valueCode_leaves hs hc
    refine step_code hr ho ⟨((Straight.one rfl).append hv.straight).append (Straight.one rfl), ?_⟩
    intro
    exact ((Moves.one (.ldloc _)).append ((hv.moves trivial).frame 1)).append
      (Moves.one (.stind _))
  | @toLocal _ slot c _ hn ha hd hc hb =>
    have hv : Leaves (c.instructions ++ [.stloc slot]) known 0 :=
      (Scope.valueCode_leaves hs hc).then (Straight.one rfl) fun _ => Moves.one (.stloc slot)
    cases hb with
    | known hk => exact step_code hr ho hv
    | new hk =>
      exact (step_addLocal hr c.type hk).trans (step_code (d := d.addLocal name c.type) hr ho hv)

theorem declare_step (hr : d.InRange) {name : String} {span : Span} {typeName : String}
    (h : d.declare site name span typeName = .ok d') : Step site known d d' := by
  obtain ⟨type, slot, -, hb⟩ := declare_emits h
  cases hb with
  | known => exact Step.refl hr
  | new new => exact step_addLocal hr _ new

include hs in
theorem exprStmt_step (hr : d.InRange) (ho : d.fallsThrough = true) {e : Expr}
    (hk : known → TameStmt site d (.expr e)) (h : d.exprStmt site e = .ok d') :
    Step site known d d' := by
  have hn : Step site known d (d.noted site e) ∧ (d.noted site e).fallsThrough = true := by
    rcases @noted_eq_or site d e with h | h <;> rw [h]
    · exact ⟨Step.refl hr, ho⟩
    · exact ⟨step_warn hr _ _, ho⟩
  rcases exprStmt_emits h with ⟨-, -, rfl⟩ | ⟨c, hc, rfl⟩
  · exact hn.1
  · have hl := Scope.code_leaves hs hc
    refine hn.1.trans (step_code hn.1.inRange hn.2 ?_)
    by_cases hv : c.type.cls = site.builtins.void
    · rw [if_pos hv, List.append_nil]
      refine ⟨hl.straight, ?_⟩
      intro k
      simpa [Scope.pushes, Scope.isVoid, Site.scope, hv] using hl.moves (hk k c hc)
    · rw [if_neg hv]
      exact (hl.one (by simpa [Scope.isVoid, Site.scope] using hv)).then (Straight.one rfl)
        fun _ => Moves.one .pop

include hs in
theorem returnStmt_step (hr : d.InRange) (ho : d.fallsThrough = true) {e : Option Expr}
    {span : Span} (hk : known → TameStmt site d (.ret e span))
    (h : d.returnStmt site e span = .ok d') : Step site known d d' := by
  rcases returnStmt_emits h with ⟨-, -, rfl⟩ | ⟨value, c, rfl, hc, -, rfl⟩
  · exact step_leave (c := []) hr ho ⟨Straight.nil, fun _ => Moves.nil⟩
  · have hl := Scope.code_leaves hs hc
    refine step_leave hr ho ⟨hl.straight, fun k => ?_⟩
    have := hl.moves (hk k c hc)
    by_cases hv : c.type.cls = site.builtins.void
    · simpa [Scope.pushes, Scope.isVoid, Site.scope, hv] using this
    · have hb : (c.type.cls != site.builtins.void) = true := by simpa using hv
      rw [hb]
      simpa [Scope.pushes, Scope.isVoid, Site.scope, hv] using this

/-! Loops and conditions up to their first block. -/

theorem IsNew.base {a b c : Draft} {t : Nat} (h : IsNew b c t)
    (hs : a.segments.size ≤ b.segments.size)
    (hm : b.isMutedHere = a.isMutedHere) : IsNew a c t :=
  ⟨hs.trans h.range, h.joint, h.empty, h.muted.trans hm⟩

theorem fallsThrough_spawnFresh (hr : d.InRange) (ho : d.fallsThrough = true) (stem : String)
    (m : Bool) : (d.spawnFresh stem m).2.fallsThrough = true := by
  rw [fallsThrough_iff] at ho ⊢
  rw [isMutedHere_spawnFresh hr, current_spawnFresh, segment_spawnFresh_of_lt _ _ hr]
  exact ho

theorem isDead_spawnFresh (hr : d.InRange) (stem : String) (m : Bool) :
    (d.spawnFresh stem m).2.isDead = d.isDead := by
  rw [isDead, isDead, current_spawnFresh, segment_spawnFresh_of_lt _ _ hr]

/-- The segments of arms, set up by their conditions. -/
structure ArmsStart (site : Site) (known : Prop) (d d' : Draft) (segments : List Nat) : Prop where
  step : Step site known d d'
  current : d'.current = d.current
  open' : d'.fallsThrough = true
  muted : d'.isMutedHere = d.isMutedHere
  new : ∀ t ∈ segments, IsNew d d' t
  distinct : segments.Nodup

include hs in
theorem condition_start (hr : d.InRange) (ho : d.fallsThrough = true) {a : Arm} {segment : Nat}
    (h : d.condition site a = .ok (segment, d')) : ArmsStart site known d d' [segment] := by
  obtain ⟨c, hc, rfl, rfl⟩ := condition_eq_ok.1 h
  have hl := Scope.valueCode_leaves hs hc
  have hn : IsNew d (d.spawnFresh "Cond" false).2 d.segments.size := isNew_spawnFresh (by decide)
  have hr' := hr.spawnFresh "Cond" false
  have ho' := fallsThrough_spawnFresh hr ho "Cond" false
  have hj : Step site known (d.spawnFresh "Cond" false).2
      (((d.spawnFresh "Cond" false).2.emitAll c.instructions).branch .brtrue d.segments.size) :=
    step_jump hr' ho' .ifTrue ⟨hl.straight, fun _ => hl.moves trivial⟩ hn.joint fun hm => by
      rw [isMutedHere_spawnFresh hr, ← hn.muted, hm]
  refine ⟨(step_spawn hr (by decide)).trans hj, ?_, ?_, ?_, ?_, List.nodup_singleton _⟩
  · rw [current_branch, current_emitAll]
    rfl
  · refine fallsThrough_branch (hr'.emitAll _) ?_ (fun _ => rfl)
      (fallsThrough_emitAll hr' hl.straight ho')
    rw [size_emitAll]
    exact hn.joint.lt
  · rw [isMutedHere_branch, isMutedHere_emitAll, isMutedHere_spawnFresh hr]
  · simp only [List.mem_singleton, forall_eq]
    exact hn.step hj (Nat.ne_of_gt hr)

include hs in
theorem conditions_start {as : List Arm} {segments : List Nat} (hr : d.InRange)
    (ho : d.fallsThrough = true) (h : d.conditions site as = .ok (segments, d')) :
    ArmsStart site known d d' segments := by
  induction as generalizing d segments d' with
  | nil =>
    cases h
    exact ⟨Step.refl hr, rfl, ho, rfl, nofun, List.nodup_nil⟩
  | cons a as ih =>
    obtain ⟨segment, d₁, rest, hf, hr', rfl⟩ := conditions_cons_eq_ok.1 h
    have h₁ : ArmsStart site known d d₁ [segment] := condition_start hs hr ho hf
    have h₂ := ih h₁.step.inRange h₁.open' hr'
    have hfirst := h₁.new segment (by simp)
    have apart : segment ≠ d₁.current := by
      have := hfirst.range
      rw [h₁.current]
      exact Nat.ne_of_gt (lt_of_lt_of_le hr this)
    refine ⟨h₁.step.trans h₂.step, h₂.current.trans h₁.current, h₂.open',
      h₂.muted.trans h₁.muted, ?_, ?_⟩
    · intro t ht
      rcases List.mem_cons.1 ht with rfl | ht
      · exact hfirst.step h₂.step apart
      · exact (h₂.new t ht).base h₁.step.grows.size h₁.muted
    · refine List.nodup_cons.2 ⟨fun hm => ?_, h₂.distinct⟩
      have := (h₂.new segment hm).range
      have := hfirst.joint.lt
      omega

/-- The segments of a loop, and the draft in which its body starts. -/
structure LoopStart (site : Site) (known : Prop) (d d' : Draft) (cond after : Nat) : Prop where
  step : Step site known d d'
  current : d'.current = cond
  open' : d'.fallsThrough = true
  muted : d'.isMutedHere = d.isMutedHere
  joint : d'.IsJoint cond
  new : IsNew d d' after
  apart : after ≠ cond

/-- After the body control goes back to the condition, which is muted if the body is. -/
theorem LoopStart.join {d₁ d₂ : Draft} {cond after : Nat}
    (start : LoopStart site known d d₁ cond after) (body : Step site known d₁ d₂) :
    Step site known d₂ (d₂.join cond) := by
  apply step_join site known body.inRange (start.joint.grows body.grows)
  intro hm
  rw [body.grows.muted _ start.joint.lt, ← start.current] at hm
  exact body.advances.muted hm

theorem LoopStart.lt_emitAll {cond after : Nat} (start : LoopStart site known d d' cond after)
    (c : List Instruction) : after < (d'.emitAll c).segments.size := by
  rw [size_emitAll]
  exact start.new.joint.lt

/-- The two segments of a loop are new, and nothing else has changed. -/
structure LoopSegments (site : Site) (known : Prop) (d : Draft) : Prop where
  step : Step site known d d.loopSegments
  cond : IsNew d d.loopSegments d.segments.size
  after : IsNew d d.loopSegments (d.segments.size + 1)
  muted : d.loopSegments.isMutedHere = d.isMutedHere
  open' : d.fallsThrough = true → d.loopSegments.fallsThrough = true

theorem loopSegments_new (site : Site) (known : Prop) (hr : d.InRange) :
    LoopSegments site known d := by
  have hr₁ := hr.spawnFresh "Cond" false
  have first : Step site known d (d.spawnFresh "Cond" false).2 := step_spawn hr (by decide)
  have second : Step site known (d.spawnFresh "Cond" false).2 d.loopSegments :=
    step_spawn hr₁ (by decide)
  have after := @isNew_spawnFresh (d.spawnFresh "Cond" false).2 "AfterCond" (by decide)
  rw [size_spawnFresh] at after
  exact
    { step := first.trans second
      cond := (isNew_spawnFresh (by decide)).step second (Nat.ne_of_gt hr)
      after := after.base (by simp) (isMutedHere_spawnFresh hr "Cond" false)
      muted := (isMutedHere_spawnFresh hr₁ _ _).trans (isMutedHere_spawnFresh hr _ _)
      open' := fun ho => fallsThrough_spawnFresh hr₁ (fallsThrough_spawnFresh hr ho _ _) _ _ }

theorem isDead_loopSegments (hr : d.InRange) : d.loopSegments.isDead = d.isDead :=
  (isDead_spawnFresh (hr.spawnFresh _ _) _ _).trans (isDead_spawnFresh hr _ _)

theorem isLive_loopHead (hr : d.InRange) (h : d.isDead = false) :
    (d.loopHead.segment d.segments.size).isLive = true := by
  change ((d.loopSegments.branch .br d.segments.size).segment d.segments.size).isLive = true
  rw [isLive_branch _ (by simp [loopSegments]), isDead_loopSegments hr, h]
  simp

theorem loopHead_start (hr : d.InRange) (ho : d.fallsThrough = true) :
    LoopStart site known d d.loopHead d.segments.size (d.segments.size + 1) := by
  have new := loopSegments_new site known hr
  have enter := step_br site known new.step.inRange (new.open' ho) new.cond.joint fun hm => by
    rw [new.muted, ← new.cond.muted, hm]
  have apart : ∀ t, d.segments.size ≤ t → t ≠ d.loopSegments.current := fun t ht =>
    Nat.ne_of_gt (lt_of_lt_of_le hr ht)
  have cond := new.cond.step enter (apart _ le_rfl)
  have after := new.after.step enter (apart _ (Nat.le_succ _))
  have head := (new.step.trans enter).switchTo cond.range cond.joint.lt cond.empty
    fun hm => by rw [cond.muted, hm]
  have runs : (d.loopHead.segment d.segments.size).isLive = true ∨
      d.loopHead.isMutedHere = true := by
    cases hd : d.isDead with
    | false => exact .inl (isLive_loopHead hr hd)
    | true => exact .inr (cond.muted.trans (isMutedHere_of_dead ho hd))
  exact ⟨head, rfl, fallsThrough_iff.2 ⟨isTerminated_of_empty cond.empty, runs⟩, cond.muted,
    ⟨cond.joint.lt, cond.joint.name⟩,
    ⟨after.range, ⟨after.joint.lt, after.joint.name⟩, after.empty, after.muted⟩, by omega⟩

include hs in
theorem loopStart_start (hr : d.InRange) (ho : d.fallsThrough = true) {c : Expr} {cond after : Nat}
    (h : d.loopStart site c = .ok (cond, after, d')) : LoopStart site known d d' cond after := by
  obtain ⟨code, hc, rfl, rfl, rfl⟩ := loopStart_eq_ok.1 h
  have hl := Scope.valueCode_leaves hs hc
  have head : LoopStart site known d d.loopHead _ _ := loopHead_start hr ho
  have hj : Step site known d.loopHead
      ((d.loopHead.emitAll code.instructions).branch .brfalse (d.segments.size + 1)) :=
    step_jump head.step.inRange head.open' .ifFalse ⟨hl.straight, fun _ => hl.moves trivial⟩
      head.new.joint fun hm => by rw [head.muted, ← head.new.muted, hm]
  refine ⟨head.step.trans hj, ?_, ?_, ?_, head.joint.grows hj.grows, head.new.step hj ?_,
    head.apart⟩
  · rw [current_branch, current_emitAll, head.current]
  · exact fallsThrough_branch (head.step.inRange.emitAll _) (head.lt_emitAll _) (fun _ => rfl)
      (fallsThrough_emitAll head.step.inRange hl.straight head.open')
  · rw [isMutedHere_branch, isMutedHere_emitAll, head.muted]
  · rw [head.current]
    exact head.apart

include hs in
theorem condStart_start (hr : d.InRange) (ho : d.fallsThrough = true) {as : List Arm} {after : Nat}
    {segments : List Nat} (h : d.condStart site as = .ok (after, segments, d')) :
    ArmsStart site known d d' (after :: segments) := by
  obtain ⟨rfl, hc⟩ := condStart_eq_ok.1 h
  have hr' := hr.spawnFresh "AfterCond" false
  have hm := isMutedHere_spawnFresh hr "AfterCond" false
  have arms : ArmsStart site known _ _ _ :=
    conditions_start hs hr' (fallsThrough_spawnFresh hr ho _ _) hc
  have new : IsNew d (d.spawnFresh "AfterCond" false).2 d.segments.size :=
    isNew_spawnFresh (by decide)
  refine ⟨(step_spawn hr (by decide)).trans arms.step, arms.current, arms.open',
    arms.muted.trans hm, ?_, ?_⟩
  · intro t ht
    rcases List.mem_cons.1 ht with rfl | ht
    · exact new.step arms.step (Nat.ne_of_gt hr)
    · exact (arms.new t ht).base (by simp) hm
  · refine List.nodup_cons.2 ⟨fun hmem => ?_, arms.distinct⟩
    have := (arms.new _ hmem).range
    rw [size_spawnFresh] at this
    exact absurd this (by simp)

/-! Whole tasks. -/

/-- What a task needs of the draft that it starts from. -/
def Ready (d : Draft) : Task → Prop
  | .block _ => True
  | .one _ => d.fallsThrough = true
  | .arms after xs => d.IsJoint after ∧ (xs.map Prod.fst).Nodup ∧
      ∀ t ∈ xs.map Prod.fst, t < d.segments.size ∧ d.codeAt t = [] ∧
        ((d.segment after).isMuted = true → (d.segment t).isMuted = true)

/-- The arms of a condition fill their own segments. -/
structure ArmsDone (site : Site) (known : Prop) (d d' : Draft) (after : Nat) (ts : List Nat) :
    Prop where
  edits : Edits site known d d'
  keeps : Keeps (· ∈ ts) d d'
  newMuted : (d.segment after).isMuted = true → NewMuted d d'

def Done (site : Site) (known : Prop) (d d' : Draft) : Task → Prop
  | .block _ | .one _ => Step site known d d'
  | .arms after xs => ArmsDone site known d d' after (xs.map Prod.fst)

/-- The `else` block comes between the conditions and the arms, which are still empty then. -/
theorem ArmsStart.middle {d₁ d₂ : Draft} {after : Nat} {segments : List Nat}
    (start : ArmsStart site known d d₁ (after :: segments)) (hr : d.InRange)
    (body : Step site known d₁ d₂) :
    Step site known d (d₂.join after) ∧
      ∀ t ∈ after :: segments, IsNew d (d₂.join after) t := by
  have apart : ∀ t ∈ after :: segments, t ≠ d₁.current := fun t ht => by
    rw [start.current]
    exact Nat.ne_of_gt (lt_of_lt_of_le hr (start.new t ht).range)
  have afterNew := (start.new after (by simp)).step body (apart after (by simp))
  have join := step_join site known body.inRange afterNew.joint fun hm => by
    rw [afterNew.muted, ← start.muted] at hm
    exact body.advances.muted hm
  exact ⟨(start.step.trans body).trans join, fun t ht =>
    (start.new t ht).step (body.trans join) (apart t ht)⟩

theorem ready_arms {after : Nat} {segments : List Nat} {as : List Arm}
    (distinct : (after :: segments).Nodup) (hl : segments.length = as.length)
    (new : ∀ t ∈ after :: segments, IsNew d d' t) :
    d'.Ready (.arms after (segments.zip as)) := by
  have afterNew := new after (by simp)
  have hfst : (segments.zip as).map Prod.fst = segments := List.map_fst_zip hl.le
  refine ⟨afterNew.joint, by rw [hfst]; exact (List.nodup_cons.1 distinct).2, ?_⟩
  intro t ht
  rw [hfst] at ht
  have hn := new t (by simp [ht])
  exact ⟨hn.joint.lt, hn.empty, fun hm => by rw [hn.muted, ← afterNew.muted, hm]⟩

theorem ArmsStart.empty {d₁ d₂ d₃ : Draft} {after : Nat} {segments : List Nat} {as : List Arm}
    (start : ArmsStart site known d d₁ (after :: segments)) (hl : segments.length = as.length)
    (new : IsNew d d₂ after)
    (arms : ArmsDone site known d₂ d₃ after ((segments.zip as).map Prod.fst)) :
    d₃.codeAt after = [] := by
  rw [List.map_fst_zip hl.le] at arms
  rw [arms.keeps.code after new.joint.lt (List.nodup_cons.1 start.distinct).1, new.empty]

theorem Ready.nextArms {d₁ : Draft} {after segment : Nat} {a : Arm} {xs : List (Nat × Arm)}
    (ready : d.Ready (.arms after ((segment, a) :: xs)))
    (body : Step site known (d.switchTo segment) d₁) :
    Step site known (d.switchTo segment) (d₁.join after) ∧
      (d₁.join after).Ready (.arms after xs) := by
  obtain ⟨joint, distinct, ready⟩ := ready
  simp only [List.map_cons, List.nodup_cons, List.mem_cons, forall_eq_or_imp] at distinct ready
  obtain ⟨⟨lt, empty, hm⟩, readyRest⟩ := ready
  have join := step_join site known body.inRange (joint.grows (grows_switchTo.trans body.grows))
    fun hm' => by
      rw [body.grows.muted _ joint.lt] at hm'
      exact body.advances.muted (hm hm')
  have all := body.trans join
  refine ⟨all, joint.grows (grows_switchTo.trans all.grows), distinct.2, ?_⟩
  intro t ht
  obtain ⟨ltT, emptyT, hmT⟩ := readyRest t ht
  have apart : t ≠ segment := fun he => distinct.1 (he ▸ ht)
  refine ⟨ltT.trans_le all.grows.size, ?_, ?_⟩
  · rw [all.advances.keeps.code t ltT apart]
    exact emptyT
  · intro hm'
    rw [all.grows.muted after joint.lt] at hm'
    rw [all.grows.muted t ltT]
    exact hmT hm'

include hs in
theorem run_done {t : Task} (h : Run site t d d') :
    d.InRange → d.Ready t → (known → AllTame site t d) → Done site known d d' t := by
  induction h with
  | done => exact fun hr _ _ => Step.refl hr
  | drop h => exact fun hr _ _ => (admit_step known hr h).1
  | next h hs' hr' ihs ihr =>
    intro hr _ hk
    obtain ⟨admitted, ho⟩ := admit_step known hr h
    have one := ihs admitted.inRange (ho rfl) fun k => (hk k).leads (.first h)
    have rest := ihr one.inRange trivial fun k => (hk k).leads (.rest h hs'.compile_eq_ok)
    exact (admitted.trans one).trans rest
  | expr h => exact fun hr ho hk => exprStmt_step hs hr ho (fun k => hk k _ _ .refl) h
  | declare h => exact fun hr _ _ => declare_step hr h
  | assign h => exact fun hr ho _ => assigned_step hs hr ho (assign_emits h)
  | ret h => exact fun hr ho hk => returnStmt_step hs hr ho (fun k => hk k _ _ .refl) h
  | loop h hb ih =>
    intro hr ho hk
    have start : LoopStart site known _ _ _ _ := loopStart_start hs hr ho h
    have body := ih start.step.inRange trivial fun k => (hk k).leads (.body h)
    have join := start.join body
    have after := start.new.step (body.trans join) (by rw [start.current]; exact start.apart)
    exact ((start.step.trans body).trans join).switchTo after.range after.joint.lt after.empty
      fun hm => by rw [after.muted, hm]
  | @cond d d₁ d₂ d₃ first rest otherwise span after segments h ho' ha iho iha =>
    intro hr ho hk
    have start : ArmsStart site known _ _ _ := condStart_start hs hr ho h
    have body := iho start.step.inRange trivial fun k => (hk k).leads (.otherwise h)
    obtain ⟨all, new⟩ := start.middle hr body
    have hl := length_condStart h
    have arms := iha all.inRange (ready_arms start.distinct hl new) fun k =>
      (hk k).leads (.arms h ho'.compile_eq_ok)
    have hfst : (segments.zip (first :: rest)).map Prod.fst = segments :=
      List.map_fst_zip hl.le
    have afterNew := new after (by simp)
    have lt := afterNew.joint.lt
    have keeps : Keeps (· = d.current) d d₃ := all.advances.keeps.trans arms.keeps fun i hi hm => by
      rw [hfst] at hm
      exact absurd (start.new i (by simp [hm])).range (by omega)
    have empty : d₃.codeAt after = [] := start.empty hl afterNew arms
    have newMuted (hm : d.isMutedHere = true) : NewMuted d d₃ := (all.advances.newMuted hm).trans
      (arms.newMuted (by rw [afterNew.muted, hm])) arms.keeps.grows
    exact
      { edits :=
          (all.edits.trans arms.edits).tail (.switch (lt.trans_le arms.keeps.grows.size) empty)
        advances :=
          { keeps := ⟨keeps.grows.trans grows_switchTo, keeps.code⟩
            current := .inr afterNew.range
            inRange := lt.trans_le arms.keeps.grows.size
            muted := fun hm => by
              change (d₃.segment after).isMuted = true
              rw [arms.keeps.grows.muted after lt, afterNew.muted, hm]
            newMuted := newMuted } }
  | noArms => exact fun _ _ _ => ⟨.refl, Keeps.refl _, fun _ => newMuted_of_size rfl⟩
  | @arm d d₁ d₂ after segment a xs h ht ih iht =>
    intro _ ready hk
    obtain ⟨lt, empty, hm⟩ := ready.2.2 segment (by simp)
    have body := ih lt trivial fun k => (hk k).leads .arm
    obtain ⟨all, readyRest⟩ := ready.nextArms body
    have rest := iht all.inRange readyRest fun k => (hk k).leads (.nextArms h.compile_eq_ok)
    refine ⟨((Relation.ReflTransGen.single (.switch lt empty)).trans all.edits).trans rest.edits,
      ?_, ?_⟩
    · have keeps : Keeps (· ∈ segment :: xs.map Prod.fst) d _ :=
        ⟨grows_switchTo.trans all.grows, fun i hi hn =>
          all.advances.keeps.code i hi fun hc => hn (by rw [hc]; exact List.mem_cons_self)⟩
      exact keeps.trans rest.keeps fun i _ hm => List.mem_cons_of_mem _ hm
    · intro hm'
      have new : NewMuted d (d₁.join after) := all.advances.newMuted (hm hm')
      exact new.trans (rest.newMuted (by rw [all.grows.muted _ ready.1.lt]; exact hm'))
        rest.keeps.grows

include hs in
theorem Ready.leads {t t' : Task} (hr : d.InRange) (ready : d.Ready t)
    (hl : Leads site (t, d) (t', d')) : d'.InRange ∧ d'.Ready t' := by
  cases hl with
  | first ha =>
    obtain ⟨admitted, ho⟩ := admit_step False hr ha
    exact ⟨admitted.inRange, ho rfl⟩
  | rest ha hone =>
    obtain ⟨admitted, ho⟩ := admit_step False hr ha
    have one : Step site False _ d' :=
      run_done hs (run_one _ hone) admitted.inRange (ho rfl) False.elim
    exact ⟨one.inRange, trivial⟩
  | body hst =>
    have start : LoopStart site False d d' _ _ := loopStart_start hs hr ready hst
    exact ⟨start.step.inRange, trivial⟩
  | otherwise hst =>
    have start : ArmsStart site False d d' _ := condStart_start hs hr ready hst
    exact ⟨start.step.inRange, trivial⟩
  | arms hst hb =>
    have start : ArmsStart site False d _ _ := condStart_start hs hr ready hst
    obtain ⟨all, new⟩ := start.middle hr
      (run_done hs (run_block _ hb) start.step.inRange trivial False.elim)
    exact ⟨all.inRange, ready_arms start.distinct (length_condStart hst) new⟩
  | arm => exact ⟨(ready.2.2 _ List.mem_cons_self).1, trivial⟩
  | nextArms hb =>
    have lt := (ready.2.2 _ List.mem_cons_self).1
    have body : Step site False (d.switchTo _) _ :=
      run_done hs (run_block _ hb) lt trivial False.elim
    obtain ⟨all, rest⟩ := ready.nextArms body
    exact ⟨all.inRange, rest⟩

include hs in
theorem Ready.reaches {p q : Task × Draft} (hr : p.2.InRange) (ready : p.2.Ready p.1)
    (hl : Relation.ReflTransGen (Leads site) p q) : q.2.InRange ∧ q.2.Ready q.1 := by
  induction hl with
  | refl => exact ⟨hr, ready⟩
  | tail _ step ih => exact ih.2.leads hs ih.1 step

end ClassAsm.Draft
