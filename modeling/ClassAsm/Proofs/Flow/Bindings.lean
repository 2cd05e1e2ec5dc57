import ClassAsm.Proofs.Flow.Passing

/-! Paths that come to the address in a local before it is bound. What the text of a body says about
them holds of its segments: paths leave the code of a part unbound, or come to a use in it, exactly
if the part lets them. -/

namespace ClassAsm
namespace Draft

variable {site : Site} {slot : Nat} {d d' : Draft} {final : Locals} {name : String} {type : TypeRef}
  (found : final.find? name = some (slot, type)) (hs : site.registry.Installed site.builtins)

/-! Meeting a statement. -/

theorem enterUnreachable_passes (fair : Fair site d) (dead : d.isDead = true) :
    Passes slot d d.enterUnreachable ⟨d.locals.names, true, false⟩ := by
  obtain ⟨_, shaped⟩ := fair.shaped
  have adds := @adds_enterUnreachable d
  have bare (i : Nat) : d.enterUnreachable.Bare slot i ↔ d.Bare slot i :=
    adds.bare_iff fair.inRange shaped
  have stops : ¬ d.BareHere slot := fun here => by simp [here.isDead fair] at dead
  have stops' : ¬ d.enterUnreachable.BareHere slot := fun here =>
    lt_irrefl _ (((bare _).1 here.bare).lt fair.inRange)
  exact
    { names := rfl
      bare := fun i _ => bare i
      here := by simp [stops, stops']
      exposes := by simp [adds.exposes_iff fair.inRange shaped] }

theorem admits_passes (fair : Fair site d) {span : Span} {b : Bool}
    (h : Admits site span d d' b) : Passes slot d d' ⟨d.locals.names, true, false⟩ := by
  have reported : (if site.options.muteUnreachableCode then d
      else d.warn .unreachableCode span).segments = d.segments := by split <;> rfl
  have kept : (if site.options.muteUnreachableCode then d
      else d.warn .unreachableCode span).current = d.current := by split <;> rfl
  have locals : (if site.options.muteUnreachableCode then d
      else d.warn .unreachableCode span).locals = d.locals := by split <;> rfl
  cases h with
  | running | muted => exact .quiet rfl rfl
  | mutedFresh dead => exact enterUnreachable_passes fair dead
  | dropped => exact locals ▸ .quiet reported kept
  | kept dead =>
    have fair' : Fair site (if site.options.muteUnreachableCode then d
        else d.warn .unreachableCode span) := by
      split
      · exact fair
      · exact fair.step (step_warn fair.inRange _ _)
    refine locals ▸ Passes.after (enterUnreachable_passes fair' ?_) reported kept
    split <;> exact dead

/-- Where unreachable code is dropped, open segments run. -/
theorem Fair.isDead_of_open (fair : Fair site d) (ho : d.fallsThrough = true)
    (trims : site.options.trimUnreachableCode = true) : d.isDead = false := by
  by_contra dead
  have muted := isMutedHere_of_dead ho ((Bool.not_eq_false _).mp dead)
  rw [isMutedHere, fair.unmuted trims] at muted
  cases muted

theorem passes_of_dead (fair : Fair site d) (trims : site.options.trimUnreachableCode = true)
    (dead : d.isDead = true) {ss : List Stmt} (h : Run site (.block ss) d d') :
    Passes slot d d' ⟨d.locals.names, true, false⟩ := by
  cases h with
  | done => exact .quiet rfl rfl
  | drop h => exact admits_passes fair (admits h)
  | next h =>
    have unmuted := fair.unmuted trims d.current
    cases admits h with
    | running running => simp [dead] at running
    | muted _ muted | mutedFresh _ muted => simp [unmuted] at muted
    | kept _ _ trim => simp [trims] at trim

/-! Statements without blocks. -/

theorem exprStmt_of_useless {e : Expr}
    (useless : (!e.isCall && site.options.trimUselessCode) = true) (h : d.exprStmt site e = .ok d') : d' = d.noted site e := by
  unfold exprStmt at h
  change (if (!e.isCall && site.options.trimUselessCode) = true then .ok (d.noted site e)
    else (d.noted site e).expr site e >>= _) = _ at h
  rw [if_pos useless] at h
  exact (Except.ok.inj h).symm

include found hs in
theorem exprStmt_passes (fair : Fair site d) (ho : d.fallsThrough = true)
    (within : d.locals.Within final) {e : Expr} (h : d.exprStmt site e = .ok d') :
    Passes slot d d' ((Stmt.expr e).passage site name d.locals.names) := by
  have noted : Fair site (d.noted site e) ∧ (d.noted site e).fallsThrough = true ∧
      (d.noted site e).segments = d.segments ∧ (d.noted site e).current = d.current := by
    rcases @noted_eq_or site d e with he | he <;> rw [he]
    · exact ⟨fair, ho, rfl, rfl⟩
    · exact ⟨fair.step (step_warn fair.inRange _ _), ho, rfl, rfl⟩
  obtain ⟨fair', ho', segments, current⟩ := noted
  have locals := locals_noted site d e
  cases useless : !e.isCall && site.options.trimUselessCode with
  | true =>
    obtain rfl := exprStmt_of_useless useless h
    have quiet : Passes slot d (d.noted site e) ⟨_, true, false⟩ := .quiet segments current
    simpa [Stmt.passage, Stmt.mayFall, Stmt.stores, Stmt.uses, Stmt.kept, useless,
      Stmt.storesThrough, Stmt.binds, locals] using quiet
  | false =>
    obtain ⟨call, trims, -⟩ | ⟨c, hc, rfl⟩ := exprStmt_emits h
    · simp [call, trims] at useless
    have straight := (Scope.code_leaves hs hc).straight
    have dropped : ∀ i ∈ (if c.type.cls = site.builtins.void then [] else [Instruction.pop]),
        i.slot? = none ∧ i.isControl = false := by
      split <;> simp [Instruction.slot?, Instruction.isControl]
    have value := (handles_of_code found within hs hc).append
      (Handles.of_none fun i hi => (dropped i hi).1)
    have passes := (passes_emitAll fair' ho' (straight.append fun i hi => (dropped i hi).2)
      value).after segments current
    simpa [Stmt.passage, Stmt.mayFall, Stmt.stores, Stmt.uses, Stmt.kept, useless,
      Stmt.storesThrough, Stmt.binds, locals] using passes

theorem declare_passes {n : String} {nameSpan span : Span} {typeName : String}
    (h : d.declare site n nameSpan typeName = .ok d') :
    Passes slot d d'
      ((Stmt.declare n nameSpan typeName span).passage site name d.locals.names) := by
  obtain ⟨_, _, -, hb⟩ := declare_emits h
  have names := names_of_binds hb
  have quiet : Passes slot d d' ⟨d'.locals.names, true, false⟩ := by
    cases hb with
    | known => exact .quiet rfl rfl
    | new => exact .quiet rfl rfl
  rwa [names] at quiet

theorem passage_assign (known : List String) (n : String) (nameSpan span : Span)
    (typeName : Option String) (e : Expr) :
    (Stmt.assign n nameSpan typeName e span).passage site name known =
      ⟨(Stmt.assign n nameSpan typeName e span).binds site.isField known,
        !(Stmt.assign n nameSpan typeName e span).stores site name known,
        decide (name ∈ site.reads known e) ||
          (Stmt.assign n nameSpan typeName e span).storesThrough name known⟩ := by
  simp [Stmt.passage, Stmt.mayFall, Stmt.uses, Stmt.kept, Stmt.values]

theorem assign_toField (nameSpan span : Span) (name : String) (e : Expr) {n : String} {f : Field}
    (hl : d.locals.find? n = none) (hf : (site.scope d.locals).field? n = some f) :
    (Stmt.assign n nameSpan none e span).stores site name d.locals.names = false ∧
      (Stmt.assign n nameSpan none e span).storesThrough name d.locals.names = false := by
  have unknown : d.locals.names.contains n = false := by simp [Locals.mem_names, hl]
  have field : site.isField n = true := by
    rw [← field?_isSome_eq site d.locals, hf]
    rfl
  rw [Stmt.stores, Stmt.storesThrough, unknown, field]
  simp

theorem assign_through (site : Site) (nameSpan span : Span) (name : String) (e : Expr) {n : String}
    {s : Nat} {t : TypeRef} (hl : d.locals.find? n = some (s, t)) (own : s = slot ↔ n = name) :
    (Stmt.assign n nameSpan none e span).stores site name d.locals.names = false ∧
      (Stmt.assign n nameSpan none e span).storesThrough name d.locals.names = (s == slot) := by
  have known : d.locals.names.contains n = true := by simp [Locals.mem_names, hl]
  have same : (n == name) = (s == slot) := Bool.eq_iff_iff.2 (by simpa using own.symm)
  rw [Stmt.stores, Stmt.storesThrough, known, Bool.and_true]
  exact ⟨by simp, same⟩

/-- Only an address that is bound for the first time is stored without its type. -/
theorem assign_toLocal (nameSpan span : Span) (e : Expr) {n : String} {typeName : Option String}
    {s : Nat} (own : s = slot ↔ n = name) (unknown : n = name → typeName = none →
      d.locals.find? n = none ∧ (site.scope d.locals).field? n = none) :
    (Stmt.assign n nameSpan typeName e span).stores site name d.locals.names = (s == slot) ∧
      (Stmt.assign n nameSpan typeName e span).storesThrough name d.locals.names = false := by
  by_cases same : n = name
  · have here : (s == slot) = true := by simpa using own.2 same
    cases typeName with
    | some => simp [Stmt.stores, Stmt.storesThrough, same, here]
    | none =>
      obtain ⟨new, apart⟩ := unknown same rfl
      have other : site.isField n = false := by
        rw [← field?_isSome_eq site d.locals, apart]
        rfl
      have fresh : d.locals.names.contains n = false := by simp [Locals.mem_names, new]
      rw [Stmt.stores, Stmt.storesThrough, fresh, other, here]
      simp [same]
  · have apart : (s == slot) = false := by simpa using own.not.2 same
    cases typeName <;> simp [Stmt.stores, Stmt.storesThrough, same, apart]

include found hs in
theorem assigned_passes (address : type.isAddress = true) (fair : Fair site d)
    (ho : d.fallsThrough = true) (within : d'.locals.Within final) {n : String}
    {nameSpan span : Span} {typeName : Option String} {e : Expr}
    (h : Assigned site d n e typeName d') : Passes slot d d'
      ((Stmt.assign n nameSpan typeName e span).passage site name d.locals.names) := by
  have names := @names_of_assigned site d d' n nameSpan span typeName e h
  rw [passage_assign, ← names]
  have straight {c : Code} (hc : (site.scope d.locals).valueCode e = .ok c) :
      Straight c.instructions := (Scope.valueCode_leaves hs hc).straight
  cases h with
  | @toStatic f c hl hf hst hc ht =>
    rw [locals_emitAll] at within ⊢
    obtain ⟨stores, through⟩ := assign_toField nameSpan span name e hl hf
    have value := (handles_of_code found within hs (Scope.valueCode_eq_ok.1 hc).1).append
      (.one (.stsfld (site.registry.fieldTarget site.owner f)) rfl)
    have passes := passes_emitAll fair ho ((straight hc).append (Straight.one rfl)) value
    simpa [stores, through] using passes
  | @toInstance f c hl hf hst hr hc ht =>
    rw [locals_emitAll] at within ⊢
    obtain ⟨stores, through⟩ := assign_toField nameSpan span name e hl hf
    have value := ((Handles.one (.ldarg 0) rfl).append
      (handles_of_code found within hs (Scope.valueCode_eq_ok.1 hc).1)).append
      (.one (.stfld (site.registry.fieldTarget site.owner f)) rfl)
    have passes := passes_emitAll fair ho
      (((Straight.one rfl).append (straight hc)).append (Straight.one rfl)) value
    simpa [stores, through] using passes
  | @through s t c hl ha hc ht =>
    rw [locals_emitAll] at within ⊢
    obtain ⟨stores, through⟩ :=
      assign_through site nameSpan span name e hl (within.slot_eq_iff found hl)
    have value := ((Handles.load s).append
      (handles_of_code found within hs (Scope.valueCode_eq_ok.1 hc).1)).append
      (.one (.stind (site.builtins.elementKind t.cls)) rfl)
    have passes := passes_emitAll fair ho
      (((Straight.one rfl).append (straight hc)).append (Straight.one rfl)) value
    simpa [stores, through, Bool.or_comm] using passes
  | @toLocal _ s c d₀ hn ha hd hc hb =>
    rw [locals_emitAll] at within ⊢
    have grown : d.locals.Within d₀.locals ∧ d₀.segments = d.segments ∧ d₀.current = d.current ∧
        Fair site d₀ ∧ d₀.fallsThrough = true := by
      cases hb with
      | known => exact ⟨fun _ _ => id, rfl, rfl, fair, ho⟩
      | new new => exact ⟨(grows_addLocal c.type new).locals, rfl, rfl,
          fair.step (step_addLocal fair.inRange _ new), ho⟩
    obtain ⟨grown, segments, current, fair₀, ho₀⟩ := grown
    -- an address that is known already would be stored through
    have unknown (same : n = name) (untyped : typeName = none) : d.locals.find? n = none := by
      by_contra known
      obtain ⟨⟨k, t⟩, known⟩ := Option.ne_none_iff_exists'.1 known
      have there := within n _ (grown n _ known)
      rw [same, found] at there
      obtain ⟨-, rfl⟩ := Prod.mk.inj (Option.some.inj there)
      simp [ha untyped k _ known] at address
    obtain ⟨stores, through⟩ := assign_toLocal nameSpan span e
      (within.slot_eq_iff found hb.find?) fun same untyped =>
        ⟨unknown same untyped, hn untyped (unknown same untyped)⟩
    have value := (handles_of_code found (fun m x hm => within m x (grown m x hm)) hs
      (Scope.valueCode_eq_ok.1 hc).1).append (.store s)
    have passes := (passes_emitAll fair₀ ho₀ ((straight hc).append (Straight.one rfl))
      value).after segments current
    simpa [stores, through, bne] using passes

include found hs in
theorem returnStmt_passes (fair : Fair site d) (ho : d.fallsThrough = true)
    (within : d.locals.Within final) {e : Option Expr} {span : Span}
    (h : d.returnStmt site e span = .ok d') :
    Passes slot d d' ((Stmt.ret e span).passage site name d.locals.names) := by
  obtain ⟨rfl, -, rfl⟩ | ⟨value, c, rfl, hc, -, rfl⟩ := returnStmt_emits h
  · have none : Handles slot [] true false := .of_none (List.forall_mem_nil _)
    exact passes_ret fair ho Straight.nil none false
  · have passes := passes_ret fair ho (Scope.code_leaves hs hc).straight
      (handles_of_code found within hs hc) (c.type.cls != site.builtins.void)
    simpa [Stmt.passage, Stmt.mayFall, Stmt.uses, Stmt.kept, Stmt.values, Stmt.storesThrough,
      Stmt.binds, emitAll_emit] using passes

/-! Whole tasks. -/

/-- What a task does to paths with nothing stored. A block that is dropped as a whole is left
aside. -/
def Task.Passes (site : Site) (name : String) (slot : Nat) : Task → Draft → Draft → Prop
  | .block ss, d, d' => (site.options.trimUnreachableCode = true → d.isDead = false) →
      Draft.Passes slot d d' (Task.passage site name d.locals.names (.block ss))
  | .one s, d, d' => Draft.Passes slot d d' (Task.passage site name d.locals.names (.one s))
  | .arms after xs, d, d' => after ∉ xs.map Prod.fst → d.codeAt after = [] →
      (site.options.trimUnreachableCode = true →
        ∀ t ∈ xs.map Prod.fst, (d.segment t).isLive = true) →
      ∀ entered, (∀ t ∈ xs.map Prod.fst, d.Bare slot t ↔ entered) →
        ArmsPass slot after entered d d' (Task.passage site name d.locals.names (.arms after xs))

/-- Behind a statement that control does not leave, the rest of a block is dropped. -/
theorem rest_passes (fair : Fair site d) {falls : Bool}
    (dead : site.options.trimUnreachableCode = true → d.isDead = !falls) {rest : List Stmt}
    (h : Run site (.block rest) d d') (passes : (Task.block rest).Passes site name slot d d') :
    Passes slot d d'
      (if site.options.trimUnreachableCode && !falls then ⟨d.locals.names, true, false⟩
        else Stmt.passageAll site name d.locals.names rest) := by
  split
  · next gone =>
    obtain ⟨trims, stops⟩ := Bool.and_eq_true_iff.1 gone
    exact passes_of_dead fair trims (by rw [dead trims, stops]) h
  · next goesOn =>
    refine passes fun trims => ?_
    have falls : falls = true := by simpa [trims] using goesOn
    rw [dead trims, falls]
    rfl

include hs in
/-- The arms of a condition that is not dropped are not dropped either. -/
theorem condStart_live (fair : Fair site d) (ho : d.fallsThrough = true) {as : List Arm}
    {after : Nat} {segments : List Nat} {d₁ : Draft}
    (h : d.condStart site as = .ok (after, segments, d₁)) (grows : Grows d₁ d')
    (trims : site.options.trimUnreachableCode = true) :
    ∀ t ∈ segments, (d'.segment t).isLive = true := by
  have start : ArmsStart site False d d₁ (after :: segments) := condStart_start hs fair.inRange ho h
  have branches := condStart_branches hs fair.inRange ho h
  intro t ht
  refine grows.live t ?_
  rw [branches.live_of_new ht (start.new t (List.mem_cons_of_mem _ ht)).range,
    fair.isDead_of_open ho trims]
  rfl

theorem uses_cond (first : Arm) (rest : List Arm) (otherwise : Option Block) (span : Span)
    (known : List String) : (Stmt.cond first rest otherwise span).uses site name known =
      (first :: rest).any fun a => name ∈ site.reads known a.condition := by
  rw [Stmt.uses, Stmt.storesThrough, Bool.or_false, Stmt.kept, Stmt.values, List.any_map]
  rfl

theorem within_of_grows (within : d'.locals.Within final) (grows : Grows d d') :
    d.locals.Within final := fun n x hx => within n x (grows.locals n x hx)

include found hs in
theorem run_passes (address : type.isAddress = true) {t : Task} (h : Run site t d d') :
    Fair site d → d.Ready t → d'.locals.Within final → t.Passes site name slot d d' := by
  -- the slot belongs to the name all through the body, as locals are never forgotten
  induction h with
  | done => exact fun _ _ _ _ => .quiet rfl rfl
  | drop h =>
    intro _ _ _ running
    cases admits h with
    | dropped dead _ trim => simp [running trim] at dead
  | @next d d₁ d₂ d₃ s rest h hs' hr' ihs ihr =>
    intro fair _ within running
    obtain ⟨admitted, ho⟩ := admit_step False fair.inRange h
    have fair₁ := fair.step admitted
    have one : Step site False d₁ d₂ :=
      run_done hs hs' fair₁.inRange (ho rfl) False.elim
    have fair₂ := fair₁.step one
    have others : Step site False d₂ d₃ := run_done hs hr' fair₂.inRange trivial False.elim
    have first := ihs fair₁ (ho rfl) (within_of_grows within others.grows)
    rw [Task.Passes, (admits h).locals] at first
    have falls : Falls d₁ d₂ s.mayFall := run_flows hs hs' fair₁.inRange (ho rfl)
    have dead (trims : site.options.trimUnreachableCode = true) : d₂.isDead = !s.mayFall := by
      rw [falls.dead, fair₁.isDead_of_open (ho rfl) trims, Bool.false_or]
    have tail := rest_passes fair₂ dead hr' (ihr fair₂ trivial within)
    have whole := (admits_passes fair (admits h)).trans first admitted.grows.size
    exact whole.andThen (q := fun known =>
      if site.options.trimUnreachableCode && !s.mayFall then ⟨known, true, false⟩
      else Stmt.passageAll site name known rest) tail (admitted.grows.size.trans one.grows.size)
  | expr h =>
    intro fair ho within
    have step : Step site False _ _ := exprStmt_step hs fair.inRange ho False.elim h
    exact exprStmt_passes found hs fair ho (within_of_grows within step.grows) h
  | declare h => exact fun _ _ _ => declare_passes h
  | assign h =>
    exact fun fair ho within => assigned_passes found hs address fair ho within (assign_emits h)
  | ret h =>
    intro fair ho within
    have step : Step site False _ _ := returnStmt_step hs fair.inRange ho False.elim h
    exact returnStmt_passes found hs fair ho (within_of_grows within step.grows) h
  | @loop d d₁ d₂ c body span cond after h hb ih =>
    intro fair ho within
    have start : LoopStart site False d d₁ cond after := loopStart_start hs fair.inRange ho h
    have fair₁ := fair.step start.step
    have step : Step site False d₁ d₂ :=
      run_done hs hb fair₁.inRange trivial False.elim
    have within₂ : d₂.locals.Within final := locals_join d₂ cond ▸ within
    have within₀ := within_of_grows within₂ (start.step.grows.trans step.grows)
    have inside := ih fair₁ trivial within₂ (fair₁.isDead_of_open start.open')
    rw [locals_loopStart h] at inside
    have passes := loop_passes hs fair ho h (loopStart_tests found hs fair ho within₀ h) step inside
    rw [Task.Passes, passage_loop]
    simpa [Passage.repeated, Passage.andThen, Stmt.uses, Stmt.kept, Stmt.values,
      Stmt.storesThrough] using passes
  | @cond d d₁ d₂ d₃ first rest otherwise span after segments h ho' ha iho iha =>
    intro fair ho within
    have start : ArmsStart site False d d₁ (after :: segments) :=
      condStart_start hs fair.inRange ho h
    have fair₁ := fair.step start.step
    have step : Step site False d₁ d₂ :=
      run_done hs ho' fair₁.inRange trivial False.elim
    obtain ⟨all, new⟩ := start.middle fair.inRange step
    have hl := length_condStart h
    have ready := ready_arms start.distinct hl new
    have arms : ArmsDone site False (d₂.join after) d₃ after _ :=
      run_done hs ha all.inRange ready False.elim
    have apart := (List.nodup_cons.1 start.distinct).1
    have fst : (segments.zip (first :: rest)).map Prod.fst = segments := List.map_fst_zip hl.le
    have within₃ : d₃.locals.Within final := within
    have within₂ : d₂.locals.Within final :=
      locals_join d₂ after ▸ within_of_grows within₃ arms.keeps.grows
    have within₀ := within_of_grows within₂ (start.step.grows.trans step.grows)
    have inside := iho fair₁ trivial within₂ (fair₁.isDead_of_open start.open')
    rw [locals_condStart h] at inside
    have filled := iha (fair.step all) ready within₃
    simp only [Task.Passes, fst] at filled
    have joint := (start.new after List.mem_cons_self).joint.lt.trans_le step.grows.size
    have live := condStart_live hs fair ho h (step.grows.trans (grows_join step.inRange joint))
    have passes := cond_passes (q := (Task.passage site name · (.arms after (segments.zip
      (first :: rest))))) hs fair ho h (condStart_tests found hs fair ho within₀ h) step inside
      (start.empty hl (new after List.mem_cons_self) arms)
      (filled apart (new after List.mem_cons_self).empty live)
    rw [Task.Passes, passage_cond first rest otherwise span after hl, uses_cond]
    simpa only [Passage.andThen, Bool.true_and] using passes
  | noArms =>
    exact fun _ _ _ _ _ _ entered _ =>
      ⟨rfl, fun _ _ _ => Iff.rfl, by simp [Task.passage, Arm.passageAll],
        by simp [Task.passage, Arm.passageAll]⟩
  | @arm d d₁ d₂ after segment a xs h ht ih iht =>
    intro fair ready within apart empty live entered enters
    obtain ⟨inside, blank, -⟩ := ready.2.2 segment (by simp)
    have fair₀ := fair.switchTo inside blank
    have body : Step site False (d.switchTo segment) d₁ :=
      run_done hs h fair₀.inRange trivial False.elim
    obtain ⟨all, next⟩ := ready.nextArms body
    have arms : ArmsDone site False (d₁.join after) d₂ after _ :=
      run_done hs ht all.inRange next False.elim
    have within₁ : d₁.locals.Within final :=
      locals_join d₁ after ▸ within_of_grows within arms.keeps.grows
    have first := ih fair₀ trivial within₁ fun trims => by
      rw [isDead_switchTo_of_empty blank, live trims segment List.mem_cons_self]
      rfl
    rw [passage_arms_cons]
    refine arm_passes fair ready empty body first apart enters fun empty' enters' => ?_
    refine iht (fair₀.step all) next within (fun hm => apart (List.mem_cons_of_mem _ hm)) empty'
      (fun trims t hm => ?_) entered enters'
    exact all.grows.live t (live trims t (List.mem_cons_of_mem _ hm))

/-! Parameters. -/

include found in
/-- The arguments are stored before anything else. -/
theorem params_passes (fair : Fair site d) (ho : d.fallsThrough = true) {n : Nat}
    {ps : List (Param × TypeRef)} (h : d.params site n ps = .ok d')
    (within : d'.locals.Within final) :
    Passes slot d d' ⟨d'.locals.names, ps.all (·.1.name != name), false⟩ := by
  induction ps generalizing d n with
  | nil =>
    cases h
    exact .quiet rfl rfl
  | cons p ps ih =>
    obtain ⟨p, type'⟩ := p
    obtain ⟨new, -, rest⟩ := params_cons_eq_ok h
    have bound : Step site False d (d.addLocal p.name type') := step_addLocal fair.inRange _ _
    have fair₀ : Fair site (d.addLocal p.name type') := fair.step bound
    obtain ⟨copied, ho'⟩ := Step.open_of_code site fair₀.inRange ho
      (copy_leaves (argumentSlot site n) d.locals.size False)
    have others : Step site False _ d' := (params_step False copied.inRange ho' rest).1
    have own : d.locals.size = slot ↔ p.name = name :=
      (within_of_grows within (copied.trans others).grows).slot_eq_iff found
        (Locals.find?_add new)
    have copies : Handles slot [.ldarg (argumentSlot site n), .stloc d.locals.size]
        (p.name != name) false := by
      have same : (d.locals.size != slot) = (p.name != name) := by
        rw [Bool.eq_iff_iff, bne_iff_ne, bne_iff_ne]
        exact own.not
      exact same ▸ (Handles.one (.ldarg (argumentSlot site n)) rfl).append (.store d.locals.size)
    have straight : Straight [.ldarg (argumentSlot site n), .stloc d.locals.size] :=
      (copy_leaves (argumentSlot site n) d.locals.size False).straight
    have first : Passes slot d _ _ := (passes_emitAll fair₀ ho straight copies).after rfl rfl
    have tail := ih (fair₀.step copied) ho' rest
    have both := first.andThen (q := fun _ => ⟨d'.locals.names, ps.all (·.1.name != name), false⟩)
      tail copied.grows.size
    simpa [Passage.andThen] using both

end Draft
end ClassAsm
