import ClassAsm.Proofs.Trimming.Statements

/-! Whole bodies. Where the whole draft goes on in code that control cannot reach, the trimmed one
drops the rest of the block, and the two meet again in the segment behind it. The induction is on
the run of the whole draft; next to it the run of the trimmed one is built. -/

namespace ClassAsm.Draft

variable {o : Options} {site : Site} {P : Nat → Nat → Prop} {names names' : List String}
  {d d' e e' : Draft}

/-! New segments in both drafts. -/

theorem le_morePairs (P : Nat → Nat → Prop) (d d' : Draft) (i k : Nat) (hp : P i k) :
    morePairs P d d' i k := .inl hp

theorem Synced.spawn (h : Synced o site P names d d') (stem : String) (hs : stem ≠ "Unreachable") :
    Synced o site (morePairs P d d') names (d.spawnFresh stem false).2
      (d'.spawnFresh stem false).2 := by
  have adds := @adds_spawnFresh d stem false
  have adds' := @adds_spawnFresh d' stem false
  rw [h.isMutedHere] at adds'
  exact
    { twin := h.twin.adds adds adds' rfl rfl
      kin := h.kin
      fair := h.fair.step (step_spawn h.fair.inRange hs)
      fair' := h.fair'.step (step_spawn h.fair'.inRange hs)
      sync := .inl h.sync }

theorem Both.switchTo (h : Both o site P names d d') {t t' : Nat} (ht : P t t')
    (empty : d.codeAt t = []) (empty' : d'.codeAt t' = []) :
    Synced o site P names (d.switchTo t) (d'.switchTo t') := by
  obtain ⟨lt, lt'⟩ := h.twin.lt t t' ht
  have fair {site : Site} {d : Draft} {t : Nat} (h : Fair site d) (lt : t < d.segments.size)
      (empty : d.codeAt t = []) : Fair site (d.switchTo t) := by
    obtain ⟨⟨labels, warnings, edits⟩, -⟩ := h
    exact ⟨⟨labels, warnings, edits.tail (.switch lt empty)⟩, lt⟩
  exact
    { twin := h.twin.quiet rfl rfl ⟨fun _ _ => rfl, fun _ _ => id⟩ ⟨fun _ _ => rfl, fun _ _ => id⟩
      kin := h.kin
      fair := fair h.fair lt empty
      fair' := fair h.fair' lt' empty'
      sync := ht }

/-- The whole draft is in code that the trimmed one has dropped. -/
structure Gone (o : Options) (d d' : Draft) : Prop where
  drops : o.trimUnreachableCode = true
  muted : d.isMutedHere = true
  dead : d'.isDead = true

/-- Where no muted code is, dead code has no end that control could leave. -/
theorem fallsThrough_of_dead (hm : d.isMutedHere = false) (hd : d.isDead = true) :
    d.fallsThrough = false := by
  by_contra ho
  rw [isMutedHere_of_dead ((Bool.not_eq_false _).mp ho) hd] at hm
  cases hm

/-- A branch to the segment may end the current one. -/
structure Joins (d : Draft) (t : Nat) : Prop where
  joint : d.IsJoint t
  muted : (d.segment t).isMuted = true → d.isMutedHere = true

theorem Both.join (h : Both o site P names d d') (mode : P d.current d'.current ∨ Gone o d d')
    {t t' : Nat} (ht : P t t') (joins : d.Joins t) (joins' : d'.Joins t') :
    Both o site P names (d.join t) (d'.join t') := by
  rcases mode with sync | gone
  · have synced : Synced o site P names d d' := ⟨h, sync⟩
    unfold Draft.join
    rw [synced.fallsThrough]
    split
    · next ho =>
      have joined := synced.jump ho Straight.nil Straight.nil .nil .always ht joins.joint
        joins'.joint joins.muted
      exact joined.toBoth
    · exact h
  · have step := step_join site False h.fair.inRange joins.joint joins.muted
    have unmuted := h.fair'.unmuted gone.drops
    have stays : d'.join t' = d' := by
      rw [Draft.join, fallsThrough_of_dead (unmuted _) gone.dead]
      rfl
    rw [stays]
    exact
      { twin := h.twin.aside (h.fair.aside gone.muted step) unmuted
        kin := h.kin.grow gone.drops step.grows.locals
        fair := h.fair.step step
        fair' := h.fair' }

/-! Statements that come next. -/

/-- A draft with or without a warning about unreachable code. -/
def reported (d : Draft) (site : Site) (span : Span) : Draft :=
  if site.options.muteUnreachableCode then d else d.warn .unreachableCode span

theorem reported_eq_or (site : Site) (span : Span) :
    d.reported site span = d ∨ d.reported site span = d.warn .unreachableCode span := by
  unfold reported
  split
  · exact .inl rfl
  · exact .inr rfl

/-- A warning changes nothing else. -/
structure SameButWarned (site : Site) (d e : Draft) : Prop where
  step : Step site False d e
  segments : e.segments = d.segments
  current : e.current = d.current
  locals : e.locals = d.locals

theorem reported_same (site : Site) (hr : d.InRange) (span : Span) :
    SameButWarned site d (d.reported site span) := by
  rcases @reported_eq_or d site span with h | h <;> rw [h]
  · exact ⟨Step.refl hr, rfl, rfl, rfl⟩
  · exact ⟨step_warn hr _ _, rfl, rfl, rfl⟩

theorem admit_of_running (h : d.isDead = false) (span : Span) :
    d.admit? site span = (d, true) := by
  simp [admit?, h]

theorem admit_of_muted (site : Site) (h : d.isDead = true) (hm : d.isMutedHere = true)
    (span : Span) :
    d.admit? site span =
      (if (d.segment d.current).isTerminated then d.enterUnreachable else d, true) := by
  have hm' : (d.segment d.current).isMuted = true := hm
  simp [admit?, h, hm']

theorem admit_of_dead (site : Site) (h : d.isDead = true) (hm : d.isMutedHere = false)
    (span : Span) :
    d.admit? site span =
      if site.options.trimUnreachableCode then (d.reported site span, false)
      else ((d.reported site span).enterUnreachable, true) := by
  have hm' : (d.segment d.current).isMuted = false := hm
  simp [admit?, h, hm', reported]

theorem Synced.enter (h : Synced o site P names d d') (hf : Fair site d.enterUnreachable)
    (hf' : Fair (site.under o) d'.enterUnreachable) :
    Synced o site (morePairs P d d') names d.enterUnreachable d'.enterUnreachable where
  twin := h.twin.adds adds_enterUnreachable adds_enterUnreachable rfl rfl
  kin := h.kin
  fair := hf
  fair' := hf'
  sync := .inr ⟨rfl, rfl⟩

theorem Synced.admit (h : Synced o site P names d d')
    (whole : site.options.trimUnreachableCode = false)
    (hd : o.trimUnreachableCode = true → d.isDead = false) {span : Span} {d₁ : Draft}
    (ha : d.admit? site span = (d₁, true)) :
    ∃ P' d₁', (∀ i k, P i k → P' i k) ∧ d'.admit? (site.under o) span = (d₁', true) ∧
      Synced o site P' names d₁ d₁' := by
  have step := (admit_step False h.fair.inRange ha).1
  cases dead : d.isDead with
  | false =>
    rw [admit_of_running dead] at ha
    cases ha
    exact ⟨P, d', fun _ _ => id, admit_of_running (h.isDead.trans dead) span, h⟩
  | true =>
    have off : o.trimUnreachableCode = false := by
      by_contra on
      rw [hd ((Bool.not_eq_false _).mp on)] at dead
      cases dead
    have dead' := h.isDead.trans dead
    cases muted : d.isMutedHere with
    | true =>
      have ha' := admit_of_muted (site.under o) dead' (h.isMutedHere.trans muted) span
      have step' := (admit_step False h.fair'.inRange ha').1
      rw [admit_of_muted site dead muted] at ha
      obtain rfl := (Prod.mk.inj ha).1
      rw [h.twin.ended _ _ h.sync] at ha' step'
      cases ended : (d.segment d.current).isTerminated with
      | true =>
        simp only [ended, if_true] at ha' step step'
        exact ⟨_, _, le_morePairs P d d', ha', h.enter (h.fair.step step) (h.fair'.step step')⟩
      | false =>
        simp only [ended, Bool.false_eq_true, if_false] at ha'
        exact ⟨P, d', fun _ _ => id, ha', h⟩
    | false =>
      have ha' := admit_of_dead (site.under o) dead' (h.isMutedHere.trans muted) span
      have off' : (site.under o).options.trimUnreachableCode = false := off
      rw [off', if_neg (by simp)] at ha'
      have step' := (admit_step False h.fair'.inRange ha').1
      rw [admit_of_dead site dead muted, whole, if_neg (by simp)] at ha
      obtain rfl := (Prod.mk.inj ha).1
      have same := reported_same site h.fair.inRange span
      have same' := reported_same (site.under o) h.fair'.inRange span
      have warned : Synced o site P names (d.reported site span)
          (d'.reported (site.under o) span) :=
        h.quiet same.step same'.step same.segments same'.segments same.current same'.current
          (by rw [same.locals, same'.locals]; exact h.kin)
      exact ⟨_, _, le_morePairs P _ _, ha', warned.enter (h.fair.step step) (h.fair'.step step')⟩

variable (hs : site.registry.Installed site.builtins)
  (whole : site.options.trimUnreachableCode = false)

include hs whole

theorem Both.drop (h : Both o site P names d d') (on : o.trimUnreachableCode = true)
    (hd : d.isDead = true) (hd' : d'.isDead = true) {s : Stmt} {rest : List Stmt}
    (run : Run site (.block (s :: rest)) d e) :
    ∃ e', Run (site.under o) (.block (s :: rest)) d' e' ∧ Both o site P names e e' ∧
      Gone o e e' := by
  have unmuted := h.fair'.unmuted on
  have ha' := admit_of_dead (site.under o) hd' (unmuted _) s.span
  have on' : (site.under o).options.trimUnreachableCode = true := on
  rw [on', if_pos rfl] at ha'
  have same := reported_same (site.under o) h.fair'.inRange s.span
  -- the whole draft goes on in muted segments
  have alone : ∃ d₁, Aside d d₁ ∧ Fair site d₁ ∧ d₁.isMutedHere = true ∧
      Step site False d₁ e := by
    cases run with
    | drop ha =>
      cases admits ha with
      | dropped _ _ trim =>
        rw [whole] at trim
        cases trim
    | @next _ d₁ d₂ _ _ _ ha one others =>
      obtain ⟨step, opens⟩ := admit_step False h.fair.inRange ha
      have first : Step site False d₁ d₂ := run_done hs one step.inRange (opens rfl) False.elim
      have rest : Step site False d₂ e := run_done hs others first.inRange trivial False.elim
      have fair₁ := h.fair.step step
      cases hm : d.isMutedHere with
      | true =>
        exact ⟨d₁, h.fair.aside hm step, fair₁, step.advances.muted hm, first.trans rest⟩
      | false =>
        rw [admit_of_dead site hd hm, whole, if_neg (by simp)] at ha
        obtain rfl := (Prod.mk.inj ha).1
        have warned := reported_same site h.fair.inRange s.span
        have adds := @adds_enterUnreachable (d.reported site s.span)
        refine ⟨_, ?_, fair₁, isMutedHere_enterUnreachable, first.trans rest⟩
        refine Aside.trans ?_ (aside_of_adds adds fun _ _ => id)
        have segment (i) : (d.reported site s.span).segment i = d.segment i := by
          rw [Draft.segment, Draft.segment, warned.segments]
        exact ⟨by rw [warned.segments], fun i _ => by rw [segment], fun i _ => by rw [segment],
          fun i _ => by rw [segment], fun i _ _ => by rw [codeAt, codeAt, segment],
          warned.step.grows.locals⟩
  obtain ⟨d₁, aside, fair₁, muted₁, step⟩ := alone
  have gone : Aside d e := aside.trans (fair₁.aside muted₁ step)
  have whole' := h.twin.aside gone unmuted
  refine ⟨_, .drop ha', ⟨?_, ?_, fair₁.step step, h.fair'.step same.step⟩, on,
    step.advances.muted muted₁, ?_⟩
  · exact whole'.quiet rfl same.segments ⟨fun _ _ => rfl, fun _ _ => id⟩
      ⟨same.step.grows.name, same.step.grows.locals⟩
  · rw [same.locals]
    exact h.kin.grow on gone.locals
  · rw [isDead, segment, same.segments, same.current]
    exact hd'

end ClassAsm.Draft
