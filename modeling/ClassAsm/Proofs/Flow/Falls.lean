import ClassAsm.Proofs.Flow.Reach

/-! Bodies that control may leave at their end. Whether control can go on behind a statement shows
in its form alone, and compilation agrees: behind a block the current segment runs exactly if control
came into the block and the block may fall through, and no other segment in running code is left
open. -/

namespace ClassAsm

mutual

/-- Control may go on behind the statement. Conditions are not looked into. -/
def Stmt.mayFall : Stmt → Bool
  | .ret .. => false
  | .expr _ | .declare .. | .assign .. | .loop .. => true
  | .cond (.mk _ (.mk body _) _) rest (some (.mk otherwise _)) _ =>
    Stmt.allFall body || Arm.anyFalls rest || Stmt.allFall otherwise
  | .cond _ _ none _ => true

def Stmt.allFall : List Stmt → Bool
  | [] => true
  | s :: rest => s.mayFall && Stmt.allFall rest

def Arm.anyFalls : List Arm → Bool
  | [] => false
  | .mk _ (.mk body _) _ :: rest => Stmt.allFall body || Arm.anyFalls rest

end

theorem Arm.anyFalls_cons (a : Arm) (as : List Arm) :
    Arm.anyFalls (a :: as) = (Stmt.allFall a.body.stmts || Arm.anyFalls as) := by
  obtain ⟨_, ⟨_, _⟩, _⟩ := a
  rw [Arm.anyFalls]
  rfl

namespace Draft

/-- A condition falls through its `else` block, which is empty if there is none, or an arm. -/
theorem mayFall_cond (first : Arm) (rest : List Arm) (otherwise : Option Block) (span : Span) :
    (Stmt.cond first rest otherwise span).mayFall =
      (Stmt.allFall (elseStmts otherwise) || Arm.anyFalls (first :: rest)) := by
  obtain ⟨_, ⟨body, _⟩, _⟩ := first
  rcases otherwise with _ | ⟨_, _⟩
  · simp [Stmt.mayFall, elseStmts, Stmt.allFall]
  · simp only [Stmt.mayFall, elseStmts, Block.stmts, Arm.anyFalls]
    exact Bool.or_comm ..

variable {site : Site} {known : Prop} {d d' : Draft} {t : Nat} {falls : Bool}

/-! Segments of running code. -/

/-- Segments of running code are closed, but for those in a list. -/
def Shut (P : List Nat) (d : Draft) : Prop :=
  ∀ i ∉ P, (d.segment i).isLive = true → (d.segment i).isTerminated = true

theorem Shut.mono {P Q : List Nat} (h : Shut P d) (hPQ : P ⊆ Q) : Shut Q d :=
  fun i hi => h i fun hp => hi (hPQ hp)

theorem Shut.of_segments {P : List Nat} (h : Shut P d)
    (same : ∀ i ∉ P, (d'.segment i).isLive = (d.segment i).isLive)
    (code : ∀ i ∉ P, d'.codeAt i = d.codeAt i) : Shut P d' := by
  intro i hi hl
  rw [isTerminated_segment, code i hi, ← isTerminated_segment]
  exact h i hi (same i hi ▸ hl)

theorem isLive_of_size_le {i : Nat} (h : d.segments.size ≤ i) : (d.segment i).isLive = false := by
  simp [segment, h]
  rfl

theorem isLive_spawnFresh (stem : String) (muted : Bool) (i : Nat) :
    ((d.spawnFresh stem muted).2.segment i).isLive = (d.segment i).isLive :=
  (adds_spawnFresh stem muted).isLive

/-- What a statement or a block does to running code: the segments that are there keep whether they
run, none but the current one is left open, and control comes out if it came in and may fall
through. -/
structure Falls (d d' : Draft) (falls : Bool) : Prop where
  live : ∀ i < d.segments.size, (d'.segment i).isLive = (d.segment i).isLive
  shut : ∀ P, Shut (d.current :: P) d → Shut (d'.current :: P) d'
  dead : d'.isDead = (d.isDead || !falls)

/-- The arms of a condition lead to the segment after it, if they run and one may fall through. -/
structure ArmsFall (after : Nat) (ts : List Nat) (d d' : Draft) (falls : Bool) : Prop where
  live : ∀ i < d.segments.size, i ≠ after → (d'.segment i).isLive = (d.segment i).isLive
  shut : ∀ P, Shut (after :: (ts ++ P)) d → Shut (after :: P) d'
  after : (d'.segment after).isLive = ((d.segment after).isLive || falls)

theorem Falls.refl (d : Draft) : Falls d d true := ⟨fun _ _ => rfl, fun _ => id, by simp⟩

theorem Falls.trans {a b c : Draft} {f g : Bool} (h : Falls a b f) (h' : Falls b c g)
    (size : a.segments.size ≤ b.segments.size) : Falls a c (f && g) where
  live i hi := (h'.live i (hi.trans_le size)).trans (h.live i hi)
  shut P hP := h'.shut P (h.shut P hP)
  dead := by rw [h'.dead, h.dead, Bool.not_and, Bool.or_assoc]

/-- Nothing changes but warnings and locals. -/
theorem Falls.quiet (segments : d'.segments = d.segments) (current : d'.current = d.current) :
    Falls d d' true := by
  have same (i : Nat) : d'.segment i = d.segment i := by simp [segment, segments]
  refine ⟨fun i _ => by rw [same], fun P hP i hi => ?_, ?_⟩
  · rw [current] at hi
    rw [same]
    exact hP i hi
  · simp [isDead, current, same]

theorem Shut.emitAll {P : List Nat} (h : Shut (d.current :: P) d) (hr : d.InRange)
    (c : List Instruction) : Shut ((d.emitAll c).current :: P) (d.emitAll c) := by
  rw [current_emitAll]
  refine h.of_segments (fun _ _ => isLive_emitAll c) fun i hi => ?_
  rw [codeAt_emitAll hr, if_neg (List.ne_of_not_mem_cons hi)]

theorem Falls.emitAll (hr : d.InRange) (ho : d.fallsThrough = true) {c : List Instruction}
    (hc : Straight c) : Falls d (d.emitAll c) true where
  live i _ := isLive_emitAll c
  shut _ hP := hP.emitAll hr c
  dead := by simp [isDead_emitAll hr hc ho]

theorem Falls.ret (hr : d.InRange) (c : List Instruction) (hasValue : Bool) :
    Falls d (d.emitAll (c ++ [.ret hasValue])) false where
  live i _ := isLive_emitAll _
  shut _ hP := hP.emitAll hr _
  dead := by
    have closed : ((d.emitAll (c ++ [.ret hasValue])).segment d.current).isTerminated = true := by
      rw [isTerminated_segment, codeAt_emitAll hr, if_pos rfl, ← List.append_assoc,
        List.getLast?_concat]
      rfl
    simp [isDead, closed]

theorem Falls.enterUnreachable (dead : d.isDead = true) : Falls d d.enterUnreachable true where
  live i hi := by rw [segment_enterUnreachable, if_neg (Nat.ne_of_lt hi)]
  shut P hP i hi hl := by
    rw [segment_enterUnreachable] at hl ⊢
    split at hl
    · cases hl
    · next old =>
      rw [if_neg old]
      by_cases hc : i = d.current
      · subst hc
        simpa [isDead, hl] using dead
      · refine hP i (fun hm => ?_) hl
        rcases List.mem_cons.1 hm with rfl | hm
        · exact hc rfl
        · exact hi (List.mem_cons_of_mem _ hm)
  dead := by
    have new : (d.enterUnreachable.segment d.enterUnreachable.current).isLive = false := by
      change (d.enterUnreachable.segment d.segments.size).isLive = false
      rw [segment_enterUnreachable, if_pos rfl]
    rw [dead, isDead, new]
    simp

/-- Meeting a statement leaves running code alone. -/
theorem Falls.admits {span : Span} {b : Bool} (h : Admits site span d d' b) : Falls d d' true := by
  have warned : Falls d
      (if site.options.muteUnreachableCode then d else d.warn .unreachableCode span) true := by
    split
    · exact Falls.refl d
    · exact .quiet rfl rfl
  cases h with
  | running | muted => exact Falls.refl d
  | mutedFresh hd => exact .enterUnreachable hd
  | dropped => exact warned
  | kept hd =>
    refine warned.trans (.enterUnreachable ?_) ?_
    · rw [warned.dead, hd]
      rfl
    · split <;> exact le_rfl

/-! Joining the segment after a condition. -/

theorem isLive_join (ht : t < d.segments.size) (i : Nat) :
    ((d.join t).segment i).isLive = ((d.segment i).isLive || (decide (i = t) && !d.isDead)) := by
  unfold join
  split
  · exact isLive_branch _ ht
  · next closed =>
    have dead : d.isDead = true := by
      by_contra running
      exact closed (fallsThrough_of_running ((Bool.not_eq_true _).mp running))
    simp [dead]

theorem isLive_join_of_ne {i : Nat} (hi : i ≠ t) :
    ((d.join t).segment i).isLive = (d.segment i).isLive := by
  unfold join
  split
  · rw [branch_eq, isLive_emit, segment_mark, if_neg fun h => hi h.1]
  · rfl

theorem Shut.join {P : List Nat} (h : Shut (d.current :: P) d) (hr : d.InRange)
    (same : ∀ i ∉ P, ((d.join t).segment i).isLive = (d.segment i).isLive) :
    Shut P (d.join t) := by
  intro i hi hl
  rw [same i hi] at hl
  by_cases hc : i = d.current
  · subst hc
    unfold Draft.join
    split
    · rw [isTerminated_segment, codeAt_branch _ hr, if_pos rfl, List.getLast?_concat]
      rfl
    · next closed =>
      by_contra opened
      exact closed (fallsThrough_iff.2 ⟨(Bool.not_eq_true _).mp opened, .inl hl⟩)
  · have old := h i (by simp [hc, hi]) hl
    unfold Draft.join
    split
    · rw [isTerminated_segment, codeAt_branch _ hr, if_neg hc, ← isTerminated_segment]
      exact old
    · exact old

theorem Shut.switchTo {P : List Nat} (h : Shut (t :: P) d) :
    Shut ((d.switchTo t).current :: P) (d.switchTo t) := h

/-! Loops and conditions up to their first block. -/

/-- Branches to new segments: those in `ls` run if the draft does, and those in `ts` are still to be
filled. -/
structure Branches (d d' : Draft) (ls ts : List Nat) : Prop where
  live : ∀ i, (d'.segment i).isLive = ((d.segment i).isLive || (decide (i ∈ ls) && !d.isDead))
  dead : d'.isDead = d.isDead
  shut : ∀ P, Shut (d.current :: P) d → Shut (d'.current :: (ts ++ P)) d'

theorem Branches.live_of_notMem {ls ts : List Nat} (h : Branches d d' ls ts) {i : Nat}
    (hi : i ∉ ls) : (d'.segment i).isLive = (d.segment i).isLive := by
  rw [h.live, decide_eq_false hi, Bool.false_and, Bool.or_false]

theorem Branches.live_of_new {ls ts : List Nat} (h : Branches d d' ls ts) {i : Nat} (hi : i ∈ ls)
    (new : d.segments.size ≤ i) : (d'.segment i).isLive = !d.isDead := by
  rw [h.live, isLive_of_size_le new, decide_eq_true hi, Bool.false_or, Bool.true_and]

theorem Branches.trans {a b c : Draft} {ls ls' ts ts' : List Nat} (h : Branches a b ls ts)
    (h' : Branches b c ls' ts') : Branches a c (ls ++ ls') (ts ++ ts') where
  live i := by
    rw [h'.live, h.live, h.dead, Bool.or_assoc, ← Bool.and_or_distrib_right]
    simp [List.mem_append]
  dead := h'.dead.trans h.dead
  shut P hP := (h'.shut _ (h.shut P hP)).mono fun i hi => by
    simp only [List.mem_cons, List.mem_append] at hi ⊢
    tauto

theorem Branches.spawnFresh (hr : d.InRange) (stem : String) (muted : Bool) (ts : List Nat) :
    Branches d (d.spawnFresh stem muted).2 [] ts where
  live i := by simp [isLive_spawnFresh]
  dead := isDead_spawnFresh hr stem muted
  shut P hP := by
    refine Shut.mono (hP.of_segments (fun i _ => isLive_spawnFresh stem muted i)
      fun i _ => codeAt_spawnFresh _ _) fun i hi => ?_
    simp only [List.mem_cons, List.mem_append] at hi ⊢
    tauto

/-- A branch on a condition to a segment that is to be filled. -/
theorem Branches.test (hr : d.InRange) (ho : d.fallsThrough = true) {c : List Instruction}
    (hc : Straight c) {make : String → Instruction} (hj : Jump make 1) (ht : t < d.segments.size) :
    Branches d ((d.emitAll c).branch make t) [t] [t] := by
  have hr' := hr.emitAll c
  have ht' : t < (d.emitAll c).segments.size := by rwa [size_emitAll]
  have ho' := fallsThrough_emitAll hr hc ho
  have live (i : Nat) : (((d.emitAll c).branch make t).segment i).isLive =
      ((d.segment i).isLive || (decide (i ∈ [t]) && !d.isDead)) := by
    simp [isLive_branch make ht', isDead_emitAll hr hc ho]
  have open' : ((d.emitAll c).branch make t).fallsThrough = true :=
    fallsThrough_branch hr' ht' (fun _ => by cases hj <;> rfl) ho'
  refine ⟨live, ?_, fun P hP => ?_⟩
  · rw [isDead_eq_not_isLive open', live, current_branch, current_emitAll,
      isDead_eq_not_isLive ho]
    cases (d.segment d.current).isLive <;> simp
  · rw [current_branch, current_emitAll]
    refine (hP.mono ?_).of_segments (fun i hi => ?_) fun i hi => ?_
    · intro i hi
      simp only [List.mem_cons, List.mem_append] at hi ⊢
      tauto
    · have other : i ≠ t := fun he => hi (by simp [he])
      simp [live, other]
    · rw [codeAt_branch make hr', codeAt_emitAll hr, current_emitAll,
        if_neg (List.ne_of_not_mem_cons hi), if_neg (List.ne_of_not_mem_cons hi)]

variable (hs : site.registry.Installed site.builtins)

include hs in
theorem condition_branches (hr : d.InRange) (ho : d.fallsThrough = true) {a : Arm} {segment : Nat}
    (h : d.condition site a = .ok (segment, d')) : Branches d d' [segment] [segment] := by
  obtain ⟨c, hc, rfl, rfl⟩ := condition_eq_ok.1 h
  have straight := (Scope.valueCode_leaves hs hc).straight
  have test := Branches.test (hr.spawnFresh "Cond" false) (fallsThrough_spawnFresh hr ho _ _)
    straight .ifTrue (t := d.segments.size) (by simp)
  exact (Branches.spawnFresh hr "Cond" false []).trans test

include hs in
theorem conditions_branches {as : List Arm} {segments : List Nat} (hr : d.InRange)
    (ho : d.fallsThrough = true) (h : d.conditions site as = .ok (segments, d')) :
    Branches d d' segments segments := by
  induction as generalizing d segments with
  | nil =>
    cases h
    exact ⟨fun i => by simp, rfl, fun _ => id⟩
  | cons a as ih =>
    obtain ⟨segment, _, rest, ha, hr', rfl⟩ := conditions_cons_eq_ok.1 h
    have start : ArmsStart site False d _ _ := condition_start hs hr ho ha
    exact (condition_branches hs hr ho ha).trans (ih start.step.inRange start.open' hr')

include hs in
theorem condStart_branches (hr : d.InRange) (ho : d.fallsThrough = true) {as : List Arm}
    {after : Nat} {segments : List Nat} (h : d.condStart site as = .ok (after, segments, d')) :
    Branches d d' segments (after :: segments) := by
  obtain ⟨rfl, hc⟩ := condStart_eq_ok.1 h
  exact (Branches.spawnFresh hr "AfterCond" false [d.segments.size]).trans
    (conditions_branches hs (hr.spawnFresh _ _) (fallsThrough_spawnFresh hr ho _ _) hc)

/-- The condition of a loop runs if the draft does, and control goes into it and behind the loop. -/
theorem loopHead_branches (site : Site) (hr : d.InRange) (ho : d.fallsThrough = true) :
    Branches d d.loopHead [d.segments.size] [] := by
  have new := loopSegments_new site False hr
  have ho' := new.open' ho
  have hr' := new.step.inRange
  have ht : d.segments.size < d.loopSegments.segments.size := new.cond.joint.lt
  have segments : Branches d d.loopSegments [] [] :=
    (Branches.spawnFresh hr "Cond" false []).trans
      (Branches.spawnFresh (hr.spawnFresh _ _) "AfterCond" false [])
  have joined : d.loopHead = (d.loopSegments.join d.segments.size).switchTo d.segments.size := by
    rw [join, if_pos ho', loopHead]
  have live (i : Nat) : (d.loopHead.segment i).isLive =
      ((d.segment i).isLive || (decide (i ∈ [d.segments.size]) && !d.isDead)) := by
    rw [joined]
    change ((d.loopSegments.join d.segments.size).segment i).isLive = _
    rw [isLive_join ht, segments.live, segments.dead]
    simp
  have head : LoopStart site False d d.loopHead _ _ := loopHead_start hr ho
  refine ⟨live, ?_, fun P hP => ?_⟩
  · rw [isDead_eq_not_isLive head.open', head.current, live, isLive_of_size_le le_rfl]
    simp
  · rw [joined]
    have opened : Shut (d.loopSegments.current :: (d.segments.size :: P)) d.loopSegments :=
      (segments.shut P hP).mono fun i hi => by
        simp only [List.nil_append, List.mem_cons] at hi ⊢
        tauto
    exact (opened.join hr' fun i hi => isLive_join_of_ne (List.ne_of_not_mem_cons hi)).switchTo

include hs in
theorem loopStart_branches (hr : d.InRange) (ho : d.fallsThrough = true) {e : Expr}
    {cond after : Nat} (h : d.loopStart site e = .ok (cond, after, d')) :
    Branches d d' [cond, after] [after] := by
  have head : LoopStart site False d d.loopHead _ _ := loopHead_start hr ho
  obtain ⟨c, hc, rfl, rfl, rfl⟩ := loopStart_eq_ok.1 h
  have test := Branches.test head.step.inRange head.open' (Scope.valueCode_leaves hs hc).straight
    .ifFalse head.new.joint.lt
  exact (loopHead_branches site hr ho).trans test

/-! Whole tasks. -/

theorem isDead_switchTo_of_empty (empty : d.codeAt t = []) :
    (d.switchTo t).isDead = !(d.segment t).isLive := by
  change ((d.segment t).isTerminated || !(d.segment t).isLive) = _
  rw [isTerminated_of_empty empty, Bool.false_or]

/-- What a task does to running code. Arms are filled after all conditions, so they run together or
not at all. -/
def Task.Flows : Task → Draft → Draft → Prop
  | .block ss, d, d' => Falls d d' (Stmt.allFall ss)
  | .one s, d, d' => Falls d d' s.mayFall
  | .arms after xs, d, d' => after ∉ xs.map Prod.fst → ∀ runs,
      (∀ t ∈ xs.map Prod.fst, (d.segment t).isLive = runs) →
      ArmsFall after (xs.map Prod.fst) d d' (runs && Arm.anyFalls (xs.map Prod.snd))

theorem binds_falls {name : String} {type : TypeRef} {slot : Nat}
    (h : Binds d name type slot d') : Falls d d' true := by
  cases h with
  | known => exact Falls.refl d
  | new => exact .quiet rfl rfl

include hs in
theorem exprStmt_falls (hr : d.InRange) (ho : d.fallsThrough = true) {e : Expr}
    (h : d.exprStmt site e = .ok d') : Falls d d' true := by
  have noted : Falls d (d.noted site e) true ∧ (d.noted site e).InRange ∧
      (d.noted site e).fallsThrough = true ∧
      d.segments.size ≤ (d.noted site e).segments.size := by
    rcases @noted_eq_or site d e with h | h <;> rw [h]
    · exact ⟨Falls.refl d, hr, ho, le_rfl⟩
    · exact ⟨.quiet rfl rfl, hr, ho, le_rfl⟩
  rcases exprStmt_emits h with ⟨-, -, rfl⟩ | ⟨c, hc, rfl⟩
  · exact noted.1
  · have straight := (Scope.code_leaves hs hc).straight
    refine noted.1.trans (.emitAll noted.2.1 noted.2.2.1 (straight.append ?_)) noted.2.2.2
    split
    · exact Straight.nil
    · exact Straight.one rfl

include hs in
theorem assigned_falls (hr : d.InRange) (ho : d.fallsThrough = true) {name : String} {e : Expr}
    {typeName : Option String} (h : Assigned site d name e typeName d') : Falls d d' true := by
  cases h with
  | toStatic hl hf hst hc ht =>
    exact .emitAll hr ho ((Scope.valueCode_leaves hs hc).straight.append (Straight.one rfl))
  | toInstance hl hf hst hrec hc ht | through hl ha hc ht =>
    have straight := (Scope.valueCode_leaves hs hc).straight
    refine .emitAll hr ho ?_
    exact ((Straight.one rfl).append straight).append (Straight.one rfl)
  | @toLocal _ slot c _ hn ha hd hc hb =>
    have straight := (Scope.valueCode_leaves hs hc).straight.append
      (Straight.one (i := .stloc slot) rfl)
    cases hb with
    | known => exact .emitAll hr ho straight
    | new new =>
      have stored := Falls.emitAll (d := d.addLocal name c.type) hr ho straight
      exact (binds_falls (.new new)).trans stored le_rfl

theorem returnStmt_falls (hr : d.InRange) {e : Option Expr} {span : Span}
    (h : d.returnStmt site e span = .ok d') : Falls d d' false := by
  rcases returnStmt_emits h with ⟨-, -, rfl⟩ | ⟨_, c, -, -, -, rfl⟩
  · exact .ret hr [] false
  · rw [emitAll_emit]
    exact .ret hr _ _

include hs in
/-- Control goes on behind a loop if it comes to the loop. -/
theorem loop_falls {d₁ d₂ : Draft} (hr : d.InRange) (ho : d.fallsThrough = true) {c : Expr}
    {cond after : Nat} (h : d.loopStart site c = .ok (cond, after, d₁))
    (step : Step site False d₁ d₂) (body : Falls d₁ d₂ falls) :
    Falls d ((d₂.join cond).switchTo after) true := by
  have start : LoopStart site False d d₁ cond after := loopStart_start hs hr ho h
  have branches := loopStart_branches hs hr ho h
  obtain ⟨_, -, rfl, rfl, -⟩ := loopStart_eq_ok.1 h
  have lt := start.joint.lt
  have lt' := start.new.joint.lt
  have join := start.join step
  have new := start.new.step (step.trans join) (by rw [start.current]; exact start.apart)
  have head : (d₂.segment d.segments.size).isLive = !d.isDead := by
    rw [body.live _ lt, branches.live_of_new (by simp) le_rfl]
  refine ⟨fun i hi => ?_, fun P hP => ?_, ?_⟩
  · have old : i ∉ [d.segments.size, d.segments.size + 1] := by
      simp only [List.mem_cons, List.not_mem_nil, or_false]
      omega
    calc ((d₂.join d.segments.size).segment i).isLive
        = (d₂.segment i).isLive := isLive_join_of_ne (List.ne_of_not_mem_cons old)
      _ = (d₁.segment i).isLive := body.live i (hi.trans lt)
      _ = (d.segment i).isLive := branches.live_of_notMem old
  · refine ((body.shut _ (branches.shut P hP)).join step.inRange fun i _ => ?_).switchTo
    -- the condition is live already if control comes back to it
    by_cases hi : i = d.segments.size
    · subst hi
      rw [isLive_join (lt.trans_le step.grows.size), head, body.dead, branches.dead]
      cases d.isDead <;> simp
    · exact isLive_join_of_ne hi
  · rw [isDead_switchTo_of_empty new.empty, isLive_join_of_ne (Nat.succ_ne_self _),
      body.live _ lt', branches.live_of_new (by simp) (Nat.le_succ _), Bool.not_not]
    simp

include hs in
/-- Control goes on behind a condition if it comes there through the `else` block or an arm. -/
theorem cond_falls {d₁ d₂ d₃ : Draft} (hr : d.InRange) (ho : d.fallsThrough = true)
    {as : List Arm} {after : Nat} {segments : List Nat}
    (h : d.condStart site as = .ok (after, segments, d₁)) (step : Step site False d₁ d₂)
    (body : Falls d₁ d₂ falls) {any : Bool} (apart : after ∉ segments)
    (empty : d₃.codeAt after = [])
    (arms : ∀ runs, (∀ t ∈ segments, ((d₂.join after).segment t).isLive = runs) →
      ArmsFall after segments (d₂.join after) d₃ (runs && any)) :
    Falls d (d₃.switchTo after) (falls || any) := by
  have start : ArmsStart site False d d₁ (after :: segments) := condStart_start hs hr ho h
  have branches := condStart_branches hs hr ho h
  have new := start.new
  have ht : after < d₂.segments.size := (new after (by simp)).joint.lt.trans_le step.grows.size
  have size := step.grows.size.trans (grows_join step.inRange ht).size
  have filled := arms (!d.isDead) fun t ht => by
    have own := new t (by simp [ht])
    have other : t ≠ after := fun he => apart (he ▸ ht)
    rw [isLive_join_of_ne other, body.live t own.joint.lt, branches.live_of_new ht own.range]
  refine ⟨fun i hi => ?_, fun P hP => ?_, ?_⟩
  · have old : i ∉ after :: segments := fun hm => absurd (new i hm).range (not_le.2 hi)
    have grown : i < d₁.segments.size := hi.trans_le start.step.grows.size
    have other : i ≠ after := List.ne_of_not_mem_cons old
    calc (d₃.segment i).isLive
        = ((d₂.join after).segment i).isLive := filled.live i (grown.trans_le size) other
      _ = (d₂.segment i).isLive := isLive_join_of_ne other
      _ = (d₁.segment i).isLive := body.live i grown
      _ = (d.segment i).isLive := branches.live_of_notMem (List.not_mem_of_not_mem_cons old)
  · refine (filled.shut P ?_).switchTo
    exact (body.shut _ (branches.shut P hP)).join step.inRange fun i hi =>
      isLive_join_of_ne (List.ne_of_not_mem_cons hi)
  · have own := new after (by simp)
    have dark : (d₂.segment after).isLive = false := by
      rw [body.live after own.joint.lt, branches.live_of_notMem apart, isLive_of_size_le own.range]
    rw [isDead_switchTo_of_empty empty, filled.after, isLive_join ht, dark, body.dead,
      branches.dead]
    cases d.isDead <;> simp

theorem arm_falls {d₁ d₂ : Draft} {after segment : Nat} {a : Arm} {xs : List (Nat × Arm)}
    (ready : d.Ready (.arms after ((segment, a) :: xs)))
    (step : Step site False (d.switchTo segment) d₁)
    (body : Falls (d.switchTo segment) d₁ falls) (apart : after ∉ segment :: xs.map Prod.fst)
    {runs any : Bool} (live : ∀ t ∈ segment :: xs.map Prod.fst, (d.segment t).isLive = runs)
    (rest : (∀ t ∈ xs.map Prod.fst, ((d₁.join after).segment t).isLive = runs) →
      ArmsFall after (xs.map Prod.fst) (d₁.join after) d₂ (runs && any)) :
    ArmsFall after (segment :: xs.map Prod.fst) d d₂ (runs && (falls || any)) := by
  obtain ⟨joint, -, fresh⟩ := ready
  have ht : after < d₁.segments.size := joint.lt.trans_le step.grows.size
  have other {i : Nat} (hi : i < d.segments.size) (ha : i ≠ after) :
      ((d₁.join after).segment i).isLive = (d.segment i).isLive :=
    (isLive_join_of_ne ha).trans (body.live i hi)
  have starts : (d.switchTo segment).isDead = !runs := by
    rw [isDead_switchTo_of_empty (fresh segment (by simp)).2.1, live segment (by simp)]
  have filled := rest fun t hm => by
    have later : t ≠ after := fun he => apart (he ▸ List.mem_cons_of_mem _ hm)
    rw [other (fresh t (by simp [hm])).1 later, live t (by simp [hm])]
  have size := step.grows.size.trans (grows_join step.inRange ht).size
  refine ⟨fun i hi ha => ?_, fun P hP => ?_, ?_⟩
  · rw [filled.live i (hi.trans_le size) ha, other hi ha]
  · have opened : Shut (segment :: (after :: (xs.map Prod.fst ++ P))) d := hP.mono fun i hi => by
      simp only [List.mem_cons, List.mem_append] at hi ⊢
      tauto
    exact filled.shut P <| (body.shut _ opened.switchTo).join step.inRange fun i hi =>
      isLive_join_of_ne (List.ne_of_not_mem_cons hi)
  · rw [filled.after, isLive_join ht, body.live after joint.lt, body.dead, starts]
    change ((d.segment after).isLive || _ || _) = _
    cases runs <;> simp [Bool.or_assoc]

include hs in
theorem run_flows {t : Task} (h : Run site t d d') : d.InRange → d.Ready t → t.Flows d d' := by
  induction h with
  | done => exact fun _ _ => Falls.refl _
  | drop h =>
    intro _ _
    have met := admits h
    have quiet := Falls.admits met
    cases met with
    | dropped dead => exact ⟨quiet.live, quiet.shut, by rw [quiet.dead, dead]; rfl⟩
  | next h hs' _ ihs ihr =>
    intro hr _
    obtain ⟨admitted, ho⟩ := admit_step False hr h
    have one : Step site False _ _ := run_done hs hs' admitted.inRange (ho rfl) False.elim
    have first := (Falls.admits (admits h)).trans (ihs admitted.inRange (ho rfl))
      admitted.grows.size
    rw [Bool.true_and] at first
    exact first.trans (ihr one.inRange trivial) (admitted.grows.size.trans one.grows.size)
  | expr h => exact fun hr ho => exprStmt_falls hs hr ho h
  | declare h =>
    intro _ _
    obtain ⟨_, _, -, hb⟩ := declare_emits h
    exact binds_falls hb
  | assign h => exact fun hr ho => assigned_falls hs hr ho (assign_emits h)
  | ret h => exact fun hr _ => returnStmt_falls hr h
  | loop h hb ih =>
    intro hr ho
    have start : LoopStart site False _ _ _ _ := loopStart_start hs hr ho h
    exact loop_falls hs hr ho h (run_done hs hb start.step.inRange trivial False.elim)
      (ih start.step.inRange trivial)
  | @cond d d₁ d₂ d₃ first rest otherwise span after segments h ho' ha iho iha =>
    intro hr ho
    have start : ArmsStart site False _ _ _ := condStart_start hs hr ho h
    have body : Step site False _ _ :=
      run_done hs ho' start.step.inRange trivial False.elim
    obtain ⟨all, new⟩ := start.middle hr body
    have hl := length_condStart h
    have ready := ready_arms start.distinct hl new
    have arms : ArmsDone site False _ _ _ _ := run_done hs ha all.inRange ready False.elim
    have apart := (List.nodup_cons.1 start.distinct).1
    have fst : (segments.zip (first :: rest)).map Prod.fst = segments := List.map_fst_zip hl.le
    have snd : (segments.zip (first :: rest)).map Prod.snd = first :: rest :=
      List.map_snd_zip hl.ge
    have filled := iha all.inRange ready
    simp only [Task.Flows, fst, snd] at filled
    simp only [Task.Flows, mayFall_cond]
    exact cond_falls hs hr ho h body (iho start.step.inRange trivial) apart
      (start.empty hl (new after (by simp)) arms) (filled apart)
  | noArms => exact fun _ _ _ _ _ => ⟨fun _ _ _ => rfl, fun _ => id, by simp [Arm.anyFalls]⟩
  | @arm d d₁ d₂ after segment a xs h ht ih iht =>
    intro _ ready apart runs live
    have lt := (ready.2.2 segment (by simp)).1
    have body : Step site False _ _ := run_done hs h lt trivial False.elim
    obtain ⟨all, next⟩ := ready.nextArms body
    simp only [List.map_cons, Arm.anyFalls_cons] at apart live ⊢
    exact arm_falls ready body (ih lt trivial) apart live fun rest =>
      iht all.inRange next (fun hm => apart (List.mem_cons_of_mem _ hm)) runs rest

end Draft
end ClassAsm
