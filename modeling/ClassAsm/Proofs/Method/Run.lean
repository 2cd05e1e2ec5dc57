import ClassAsm.Proofs.Result
import ClassAsm.Proofs.Draft.Growth
import ClassAsm.Method.Body

/-! The compilation of a body as a tree of tasks. A task is a block, one statement that has been
admitted, or the arms of a condition that are still to be filled. `Run` follows the recursion of the
compilation with one rule for each way of going on, and `run_block` says that every successful
compilation is a run. What a property needs is then proved rule by rule. -/

namespace ClassAsm

/-- The same method with other switches. -/
def Site.under (s : Site) (o : Options) : Site := { s with options := o }

namespace Draft

/-- How a statement is met: it is emitted here or in a new segment, or it is left out. -/
inductive Admits (site : Site) (span : Span) (d : Draft) : Draft → Bool → Prop where
  | running (h : d.isDead = false) : Admits site span d d true
  | muted (h : d.isDead = true) (m : (d.segment d.current).isMuted = true)
      (t : (d.segment d.current).isTerminated = false) : Admits site span d d true
  | mutedFresh (h : d.isDead = true) (m : (d.segment d.current).isMuted = true)
      (t : (d.segment d.current).isTerminated = true) : Admits site span d d.enterUnreachable true
  | dropped (h : d.isDead = true) (m : (d.segment d.current).isMuted = false)
      (trim : site.options.trimUnreachableCode = true) :
      Admits site span d
        (if site.options.muteUnreachableCode then d else d.warn .unreachableCode span) false
  | kept (h : d.isDead = true) (m : (d.segment d.current).isMuted = false)
      (trim : site.options.trimUnreachableCode = false) :
      Admits site span d
        (if site.options.muteUnreachableCode then d
          else d.warn .unreachableCode span).enterUnreachable
        true

theorem admits {site : Site} {span : Span} {d d' : Draft} {b : Bool}
    (h : d.admit? site span = (d', b)) : Admits site span d d' b := by
  unfold admit? at h
  cases hd : d.isDead with
  | false =>
    simp only [hd, Bool.not_false, if_true, Prod.mk.injEq] at h
    obtain ⟨rfl, rfl⟩ := h
    exact .running hd
  | true =>
    simp only [hd, Bool.not_true, Bool.false_eq_true, if_false] at h
    cases hm : (d.segment d.current).isMuted with
    | true =>
      cases ht : (d.segment d.current).isTerminated <;>
        simp only [hm, ht, if_true, Bool.false_eq_true, if_false, Prod.mk.injEq] at h <;>
        obtain ⟨rfl, rfl⟩ := h
      · exact .muted hd hm ht
      · exact .mutedFresh hd hm ht
    | false =>
      cases trim : site.options.trimUnreachableCode <;>
        simp only [hm, trim, if_true, Bool.false_eq_true, if_false, Prod.mk.injEq] at h <;>
        obtain ⟨rfl, rfl⟩ := h
      · exact .kept hd hm trim
      · exact .dropped hd hm trim

/-- A loop up to its body: the segments of its condition and after it, and the draft in which the
body starts. -/
def loopStart (d : Draft) (site : Site) (c : Expr) : Except Stop (Nat × Nat × Draft) := do
  let (cond, d) := d.spawnFresh "Cond" false
  let (after, d) := d.spawnFresh "AfterCond" false
  let (_, d) ← ((d.branch .br cond).switchTo cond).value site c
  .ok (cond, after, d.branch .brfalse after)

/-- A condition up to its `else` block: the segment after it, those of its arms, and the draft in
which the block starts. -/
def condStart (d : Draft) (site : Site) (as : List Arm) :
    Except Stop (Nat × List Nat × Draft) := do
  let (after, d) := d.spawnFresh "AfterCond" false
  let (segments, d) ← d.conditions site as
  .ok (after, segments, d)

/-- The statements of an `else` block, none if there is no block. -/
def elseStmts : Option Block → List Stmt
  | some b => b.stmts
  | none => []

inductive Task where
  | block (ss : List Stmt)
  | one (s : Stmt)
  /-- Arms with their segments, and the segment after the condition. -/
  | arms (after : Nat) (xs : List (Nat × Arm))

/-- What the compilation makes of a task. -/
def Task.compile (site : Site) : Task → Draft → Except Stop Draft
  | .block ss, d => d.stmts site ss
  | .one s, d => d.stmt site s
  | .arms after xs, d => d.arms site after (xs.map Prod.fst) (xs.map Prod.snd)

/-- A task leads to another, each with the draft that it starts from: a block to its first
statement and to the rest of the block, a statement to the blocks in it. -/
inductive Leads (site : Site) : Task × Draft → Task × Draft → Prop where
  | first {d d₁ : Draft} {s : Stmt} {rest : List Stmt} (h : d.admit? site s.span = (d₁, true)) :
      Leads site (.block (s :: rest), d) (.one s, d₁)
  | rest {d d₁ d₂ : Draft} {s : Stmt} {rest : List Stmt} (h : d.admit? site s.span = (d₁, true))
      (hs : d₁.stmt site s = .ok d₂) : Leads site (.block (s :: rest), d) (.block rest, d₂)
  | body {d d₁ : Draft} {c : Expr} {body : Block} {span : Span} {cond after : Nat}
      (h : d.loopStart site c = .ok (cond, after, d₁)) :
      Leads site (.one (.loop c body span), d) (.block body.stmts, d₁)
  | otherwise {d d₁ : Draft} {first : Arm} {rest : List Arm} {otherwise : Option Block}
      {span : Span} {after : Nat} {segments : List Nat}
      (h : d.condStart site (first :: rest) = .ok (after, segments, d₁)) :
      Leads site (.one (.cond first rest otherwise span), d) (.block (elseStmts otherwise), d₁)
  | arms {d d₁ d₂ : Draft} {first : Arm} {rest : List Arm} {otherwise : Option Block}
      {span : Span} {after : Nat} {segments : List Nat}
      (h : d.condStart site (first :: rest) = .ok (after, segments, d₁))
      (ho : d₁.stmts site (elseStmts otherwise) = .ok d₂) :
      Leads site (.one (.cond first rest otherwise span), d)
        (.arms after (segments.zip (first :: rest)), d₂.join after)
  | arm {d : Draft} {after segment : Nat} {a : Arm} {xs : List (Nat × Arm)} :
      Leads site (.arms after ((segment, a) :: xs), d) (.block a.body.stmts, d.switchTo segment)
  | nextArms {d d₁ : Draft} {after segment : Nat} {a : Arm} {xs : List (Nat × Arm)}
      (h : (d.switchTo segment).stmts site a.body.stmts = .ok d₁) :
      Leads site (.arms after ((segment, a) :: xs), d) (.arms after xs, d₁.join after)

variable {site : Site}

inductive Run (site : Site) : Task → Draft → Draft → Prop where
  | done {d : Draft} : Run site (.block []) d d
  | drop {d d' : Draft} {s : Stmt} {rest : List Stmt} (h : d.admit? site s.span = (d', false)) :
      Run site (.block (s :: rest)) d d'
  | next {d d₁ d₂ d₃ : Draft} {s : Stmt} {rest : List Stmt}
      (h : d.admit? site s.span = (d₁, true)) (hs : Run site (.one s) d₁ d₂)
      (hr : Run site (.block rest) d₂ d₃) : Run site (.block (s :: rest)) d d₃
  | expr {d d' : Draft} {e : Expr} (h : d.exprStmt site e = .ok d') :
      Run site (.one (.expr e)) d d'
  | declare {d d' : Draft} {name : String} {nameSpan : Span} {type : String} {span : Span}
      (h : d.declare site name nameSpan type = .ok d') :
      Run site (.one (.declare name nameSpan type span)) d d'
  | assign {d d' : Draft} {name : String} {nameSpan : Span} {type : Option String} {e : Expr}
      {span : Span} (h : d.assign site name nameSpan type e = .ok d') :
      Run site (.one (.assign name nameSpan type e span)) d d'
  | ret {d d' : Draft} {e : Option Expr} {span : Span} (h : d.returnStmt site e span = .ok d') :
      Run site (.one (.ret e span)) d d'
  | loop {d d₁ d₂ : Draft} {c : Expr} {body : Block} {span : Span} {cond after : Nat}
      (h : d.loopStart site c = .ok (cond, after, d₁)) (hb : Run site (.block body.stmts) d₁ d₂) :
      Run site (.one (.loop c body span)) d ((d₂.join cond).switchTo after)
  | cond {d d₁ d₂ d₃ : Draft} {first : Arm} {rest : List Arm} {otherwise : Option Block}
      {span : Span} {after : Nat} {segments : List Nat}
      (h : d.condStart site (first :: rest) = .ok (after, segments, d₁))
      (ho : Run site (.block (elseStmts otherwise)) d₁ d₂)
      (ha : Run site (.arms after (segments.zip (first :: rest))) (d₂.join after) d₃) :
      Run site (.one (.cond first rest otherwise span)) d (d₃.switchTo after)
  | noArms {d : Draft} {after : Nat} : Run site (.arms after []) d d
  | arm {d d₁ d₂ : Draft} {after segment : Nat} {a : Arm} {xs : List (Nat × Arm)}
      (h : Run site (.block a.body.stmts) (d.switchTo segment) d₁)
      (ht : Run site (.arms after xs) (d₁.join after) d₂) :
      Run site (.arms after ((segment, a) :: xs)) d d₂

/-! The compiler in terms of the starts. -/

theorem value_eq_ok {d d' : Draft} {e : Expr} {t : TypeRef} :
    d.value site e = .ok (t, d') ↔
      ∃ c, (site.scope d.locals).valueCode e = .ok c ∧ t = c.type ∧
        d' = d.emitAll c.instructions := by
  simp only [value, bind_eq_ok, check_eq_ok, Except.ok.injEq, Prod.mk.injEq]
  exact exists_congr fun c => and_congr_right fun _ => and_congr eq_comm eq_comm

theorem expr_eq_ok {d d' : Draft} {e : Expr} {t : TypeRef} :
    d.expr site e = .ok (t, d') ↔
      ∃ c, (site.scope d.locals).code e = .ok c ∧ t = c.type ∧
        d' = d.emitAll c.instructions := by
  simp only [expr, bind_eq_ok, check_eq_ok, Except.ok.injEq, Prod.mk.injEq]
  exact exists_congr fun c => and_congr_right fun _ => and_congr eq_comm eq_comm

theorem conditions_cons_eq_ok {d d' : Draft} {a : Arm} {as : List Arm} {segments : List Nat} :
    d.conditions site (a :: as) = .ok (segments, d') ↔ ∃ segment d₁ rest,
      d.condition site a = .ok (segment, d₁) ∧ d₁.conditions site as = .ok (rest, d') ∧
        segments = segment :: rest := by
  simp only [conditions, bind_eq_ok, Prod.exists, Except.ok.injEq, Prod.mk.injEq]
  constructor
  · rintro ⟨segment, d₁, ha, rest, _, hr, rfl, rfl⟩
    exact ⟨segment, d₁, rest, ha, hr, rfl⟩
  · rintro ⟨segment, d₁, rest, ha, hr, rfl⟩
    exact ⟨segment, d₁, ha, rest, d', hr, rfl, rfl⟩

theorem condStart_eq_ok {d d' : Draft} {as : List Arm} {after : Nat} {segments : List Nat} :
    d.condStart site as = .ok (after, segments, d') ↔ after = d.segments.size ∧
      (d.spawnFresh "AfterCond" false).2.conditions site as = .ok (segments, d') := by
  simp only [condStart, bind_eq_ok, Prod.exists, Except.ok.injEq, Prod.mk.injEq]
  constructor
  · rintro ⟨_, _, hc, rfl, rfl, rfl⟩
    exact ⟨rfl, hc⟩
  · rintro ⟨rfl, hc⟩
    exact ⟨_, _, hc, rfl, rfl, rfl⟩

theorem length_conditions {d d' : Draft} {as : List Arm} {segments : List Nat}
    (h : d.conditions site as = .ok (segments, d')) : segments.length = as.length := by
  induction as generalizing d segments with
  | nil =>
    cases h
    rfl
  | cons a as ih =>
    obtain ⟨_, _, rest, -, hr, rfl⟩ := conditions_cons_eq_ok.1 h
    simp [ih hr]

theorem length_condStart {d d' : Draft} {as : List Arm} {after : Nat} {segments : List Nat}
    (h : d.condStart site as = .ok (after, segments, d')) : segments.length = as.length :=
  length_conditions (condStart_eq_ok.1 h).2

theorem stmt_loop (d : Draft) (c : Expr) (body : Block) (span : Span) :
    d.stmt site (.loop c body span) = (do
      let (cond, after, d) ← d.loopStart site c
      let d ← d.stmts site body.stmts
      .ok ((d.join cond).switchTo after)) := by
  cases body
  rw [stmt]
  simp only [loopStart, bind_assoc]
  rfl

theorem arm_eq (d : Draft) (after segment : Nat) (a : Arm) :
    d.arm site after segment a = (do
      let d ← (d.switchTo segment).stmts site a.body.stmts
      .ok (d.join after)) := by
  obtain ⟨_, ⟨_, _⟩, _⟩ := a
  rw [arm]
  rfl

theorem stmt_cond (d : Draft) (first : Arm) (rest : List Arm) (otherwise : Option Block)
    (span : Span) :
    d.stmt site (.cond first rest otherwise span) = (do
      let (after, segments, d) ← d.condStart site (first :: rest)
      let d ← d.stmts site (elseStmts otherwise)
      let d ← (d.join after).arms site after segments (first :: rest)
      .ok (d.switchTo after)) := by
  rw [stmt]
  simp only [condStart, conditions, bind_assoc, ok_bind, arms]
  rcases otherwise with _ | ⟨_, _⟩ <;> simp only [elseStmts, Block.stmts, stmts, ok_bind]

mutual

theorem run_one {d d' : Draft} : ∀ s : Stmt, d.stmt site s = .ok d' → Run site (.one s) d d'
  | .expr e, h => .expr (by rwa [stmt] at h)
  | .declare .., h => .declare (by rwa [stmt] at h)
  | .assign .., h => .assign (by rwa [stmt] at h)
  | .ret .., h => .ret (by rwa [stmt] at h)
  | .loop c (.mk body span) loopSpan, h => by
    simp only [stmt_loop, bind_eq_ok, Prod.exists, Except.ok.injEq] at h
    obtain ⟨cond, after, d₁, hs, d₂, hb, rfl⟩ := h
    exact @Run.loop site _ _ _ _ (.mk body span) _ _ _ hs (run_block body hb)
  | .cond (.mk c (.mk body span) armSpan) rest otherwise condSpan, h => by
    simp only [stmt_cond, bind_eq_ok, Prod.exists, Except.ok.injEq] at h
    obtain ⟨after, segments, d₁, hs, d₂, ho, d₃, ha, rfl⟩ := h
    have hl : segments.length = rest.length + 1 := length_condStart hs
    obtain _ | ⟨segment, segments⟩ := segments
    · simp at hl
    simp only [arms, arm_eq, bind_eq_ok, Except.ok.injEq] at ha
    obtain ⟨_, ⟨d₄, hf, rfl⟩, hr⟩ := ha
    refine .cond hs ?_ (.arm (run_block body hf) (run_arms rest (by simpa using hl) hr))
    match otherwise with
    | none =>
      simp only [elseStmts, stmts, Except.ok.injEq] at ho
      subst ho
      exact .done
    | some (.mk body' _) => exact run_block body' ho

theorem run_arms {d d' : Draft} {after : Nat} : ∀ {segments : List Nat} (as : List Arm),
    segments.length = as.length → d.arms site after segments as = .ok d' →
    Run site (.arms after (segments.zip as)) d d'
  | [], [], _, h => by
    simp only [arms, Except.ok.injEq] at h
    subst h
    exact .noArms
  | segment :: segments, .mk c (.mk body span) armSpan :: rest, hl, h => by
    simp only [arms, arm_eq, bind_eq_ok, Except.ok.injEq] at h
    obtain ⟨_, ⟨d₁, hb, rfl⟩, hr⟩ := h
    exact .arm (run_block body hb) (run_arms rest (by simpa using hl) hr)

theorem run_block {d d' : Draft} : ∀ ss : List Stmt, d.stmts site ss = .ok d' →
    Run site (.block ss) d d'
  | [], h => by
    simp only [stmts, Except.ok.injEq] at h
    subst h
    exact .done
  | s :: rest, h => by
    rw [stmts] at h
    rcases ha : d.admit? site s.span with ⟨d₁, b⟩
    cases b with
    | false =>
      simp only [ha, Bool.false_eq_true, if_false, Except.ok.injEq] at h
      subst h
      exact .drop ha
    | true =>
      simp only [ha, if_true, bind_eq_ok] at h
      obtain ⟨d₂, hs, hr⟩ := h
      exact .next ha (run_one s hs) (run_block rest hr)

end

theorem Run.compile_eq_ok {t : Task} {d d' : Draft} (h : Run site t d d') :
    t.compile site d = .ok d' := by
  induction h with
  | done => simp only [Task.compile, stmts]
  | drop h => simp [Task.compile, stmts, h]
  | next h _ _ ihs ihr =>
    simp only [Task.compile] at ihs ihr
    simp [Task.compile, stmts, h, ihs, ok_bind, ihr]
  | expr h | declare h | assign h | ret h => simpa only [Task.compile, stmt] using h
  | loop h _ ih =>
    simp only [Task.compile] at ih
    simp only [Task.compile, stmt_loop, h, ih, ok_bind]
  | cond h _ _ iho iha =>
    have hl := length_condStart h
    simp only [Task.compile, List.map_fst_zip hl.le, List.map_snd_zip hl.ge] at iho iha
    simp only [Task.compile, stmt_cond, h, iho, iha, ok_bind]
  | noArms => simp only [Task.compile, List.map_nil, arms]
  | arm _ _ ih iht =>
    simp only [Task.compile] at ih iht
    simp only [Task.compile, List.map_cons, arms, arm_eq, ih, iht, ok_bind]

theorem run_iff {t : Task} {d d' : Draft} : Run site t d d' ↔ t.compile site d = .ok d' := by
  refine ⟨Run.compile_eq_ok, ?_⟩
  intro h
  match t with
  | .block ss => exact run_block ss h
  | .one s => exact run_one s h
  | .arms after xs =>
    have := run_arms (xs.map Prod.snd) (by simp) h
    rwa [← List.zip_of_prod rfl rfl] at this

end Draft
end ClassAsm
