import ClassAsm.Proofs.Method.Chain
import ClassAsm.Proofs.Method.Finish
import ClassAsm.Proofs.Program.Jobs

/-! What a job does. The draft of a method goes from the first segment through parameters or
defaults and the body in a chain of edits, and is then finished. -/

namespace ClassAsm

open Scope (Leaves LeavesOne)

namespace Draft

variable {site : Site} {known : Prop} {d d' : Draft}

theorem Step.open_of_code (site : Site) (hr : d.InRange) (ho : d.fallsThrough = true)
    {c : List Instruction} (h : Leaves c known 0) :
    Step site known d (d.emitAll c) ∧ (d.emitAll c).fallsThrough = true :=
  ⟨step_code hr ho h, fallsThrough_emitAll hr h.straight ho⟩

theorem copy_leaves (argument slot : Nat) (known : Prop) :
    Leaves [.ldarg argument, .stloc slot] known 0 :=
  ⟨(Straight.one (i := .ldarg argument) rfl).append (Straight.one (i := .stloc slot) rfl),
    fun _ => (Moves.one (.ldarg argument)).append (Moves.one (.stloc slot))⟩

theorem params_step (known : Prop) (hr : d.InRange) (ho : d.fallsThrough = true) {n : Nat}
    {ps : List (Param × TypeRef)} (h : d.params site n ps = .ok d') :
    Step site known d d' ∧ d'.fallsThrough = true := by
  induction ps generalizing d n with
  | nil =>
    cases h
    exact ⟨Step.refl hr, ho⟩
  | cons p ps ih =>
    obtain ⟨p, type⟩ := p
    obtain ⟨new, -, h⟩ := params_cons_eq_ok h
    have bound : Step site known d (d.addLocal p.name type) := step_addLocal hr _ new
    obtain ⟨copied, ho'⟩ := Step.open_of_code (d := d.addLocal p.name type) site hr ho
      (copy_leaves (argumentSlot site n) d.locals.size known)
    have rest := ih copied.inRange ho' h
    exact ⟨(bound.trans copied).trans rest.1, rest.2⟩

theorem defaults_step (hs : site.registry.Installed site.builtins) (hr : d.InRange)
    (ho : d.fallsThrough = true) {isStatic : Bool} {fs : List Field}
    (h : d.defaults site isStatic fs = .ok d') : Step site known d d' := by
  induction fs generalizing d with
  | nil =>
    cases h
    exact Step.refl hr
  | cons f fs ih =>
    rw [defaults] at h
    split at h
    · exact ih hr ho h
    split at h
    · exact ih hr ho h
    simp only [bind_eq_ok, Prod.exists] at h
    obtain ⟨got, _, hv, h⟩ := h
    obtain ⟨c, hc, rfl, rfl⟩ := value_eq_ok.1 hv
    split at h
    · cases h
    have hl := Scope.valueCode_leaves hs hc
    cases isStatic with
    | true =>
      have stores : Leaves (c.instructions ++ [.stsfld (site.registry.fieldTarget site.owner f)])
          known 0 := hl.then (Straight.one rfl) fun _ => Moves.one (.stsfld _)
      obtain ⟨stored, ho'⟩ := Step.open_of_code site hr ho stores
      exact stored.trans (ih stored.inRange ho' (by simpa [emitAll_append] using h))
    | false =>
      have stores : Leaves ([.ldarg 0] ++ c.instructions ++
          [.stfld (site.registry.fieldTarget site.owner f)]) known 0 :=
        ⟨((Straight.one rfl).append hl.straight).append (Straight.one rfl), fun _ =>
          ((Moves.one (.ldarg 0)).append ((hl.moves trivial).frame 1)).append
            (Moves.one (.stfld _))⟩
      obtain ⟨stored, ho'⟩ := Step.open_of_code site hr ho stores
      exact stored.trans (ih stored.inRange ho' (by simpa [emitAll_append] using h))

theorem inRange_start (labels : Nat) (warnings : Array Warning) : (start labels warnings).InRange :=
  Nat.zero_lt_one

theorem fallsThrough_start (labels : Nat) (warnings : Array Warning) :
    (start labels warnings).fallsThrough = true := rfl

end Draft

namespace Job

open Draft

/-- The statements of the body. An initializer has none. -/
def stmts (j : Job) : List Stmt :=
  match j.source with
  | .declared decl => decl.body.stmts
  | .initializer _ => []

/-- The draft in which the body starts: the arguments are in locals. -/
def opening (j : Job) : Except Stop Draft :=
  let d := Draft.start j.labels j.warnings
  match j.source with
  | .declared decl => d.params j.site 0 (decl.params.zip (j.site.sig.params.map (·.2)))
  | .initializer _ => .ok d

theorem opening_eq_params {j : Job} {decl : MethodDecl} (h : j.source = .declared decl) :
    j.opening = (Draft.start j.labels j.warnings).params j.site 0
      (decl.params.zip (j.site.sig.params.map (·.2))) := by
  simp [opening, h]

/-- Compiling the body comes to a task, with the draft that there is then. -/
def Visits (j : Job) (t : Task) (d : Draft) : Prop :=
  ∃ d₀, j.opening = .ok d₀ ∧ Relation.ReflTransGen (Leads j.site) (.block j.stmts, d₀) (t, d)

/-- The values of expression statements and returns leave what their types say. -/
def Tame (j : Job) : Prop := ∀ s d, j.Visits (.one s) d → TameStmt j.site d s

/-- The draft of the whole body, from which the method is finished. -/
structure Gives (j : Job) (known : Prop) (d : Draft) (m : Method) (labels : Nat)
    (warnings : Array Warning) : Prop where
  step : Step j.site known (Draft.start j.labels j.warnings) d
  body : m.body = .segments (d.finished j.site)
  locals : m.locals = d.locals.toList
  maxStack : d.depth = 0 → m.maxStack = d.peak
  returns : ∀ i ∈ d.kept, (d.segment i).isTerminated = false →
    j.site.returnsVoid = true ∨ (d.segment i).isLive = false
  labels : labels = d.labels
  warnings : warnings = d.warnings
  /-- The body starts in an open segment, and nothing comes after a declared body. -/
  opened : ∃ d₀ d₁, j.opening = .ok d₀ ∧ d₀.InRange ∧ d₀.fallsThrough = true ∧
    d₀.stmts j.site j.stmts = .ok d₁ ∧ Grows d₁ d ∧
    ∀ decl, j.source = .declared decl → d₁ = d

theorem gives {j : Job} (known : Prop) (hs : j.site.registry.Installed j.site.builtins)
    (hk : known → j.Tame) {m : Method} {labels : Nat} {warnings : Array Warning}
    (h : j.compile = .ok (m, labels, warnings)) : ∃ d, j.Gives known d m labels warnings := by
  obtain ⟨segments, d', hsrc, hm, rfl, rfl⟩ := Method.compile_eq_ok.1 h
  have hr := inRange_start j.labels j.warnings
  have ho := fallsThrough_start j.labels j.warnings
  have ends {d₀ d₁ d : Draft} {span : Span} (hop : j.opening = .ok d₀) (hr₀ : d₀.InRange)
      (ho₀ : d₀.fallsThrough = true) (hb : d₀.stmts j.site j.stmts = .ok d₁) (hg : Grows d₁ d)
      (last : ∀ decl, j.source = .declared decl → d₁ = d)
      (step : Step j.site known (Draft.start j.labels j.warnings) d)
      (hf : d.finish j.site span = .ok (segments, d')) :
      j.Gives known d m d'.labels d'.warnings := by
    have fin := finish_eq_ok hf
    subst hm
    exact
      { step := step
        body := congrArg MethodBody.segments fin.segments
        locals := congrArg Table.toList fin.locals
        maxStack := fin.level
        returns := fin.returns
        labels := fin.labels
        warnings := fin.warnings
        opened := ⟨d₀, d₁, hop, hr₀, ho₀, hb, hg, last⟩ }
  cases src : j.source with
  | declared decl =>
    simp only [src, Draft.source, bind_eq_ok] at hsrc
    obtain ⟨d₀, hp, d, hb, hf⟩ := hsrc
    have hop : j.opening = .ok d₀ := by simpa [opening, src] using hp
    have hst : d₀.stmts j.site j.stmts = .ok d := by simpa [stmts, src] using hb
    obtain ⟨opened, ho₀⟩ := params_step known hr ho hp
    have body : Step j.site known d₀ d := run_done hs (run_block _ hst) opened.inRange trivial
      fun k s x hx => hk k s x ⟨d₀, hop, hx⟩
    have step := opened.trans body
    exact ⟨d, ends hop opened.inRange ho₀ hst (Grows.refl d) (fun _ _ => rfl) step hf⟩
  | initializer isStatic =>
    simp only [src, Draft.source, bind_eq_ok] at hsrc
    obtain ⟨d, hd, hf⟩ := hsrc
    have hop : j.opening = .ok (Draft.start j.labels j.warnings) := by simp [opening, src]
    have hst : (Draft.start j.labels j.warnings).stmts j.site j.stmts =
        .ok (Draft.start j.labels j.warnings) := by simp only [stmts, src, Draft.stmts]
    have init : Step j.site known (Draft.start j.labels j.warnings) d := by
      cases isStatic with
      | true => exact defaults_step hs hr ho hd
      | false =>
        have base : Leaves [.ldarg 0, .callBaseCtor] known 0 :=
          ⟨(Straight.one (i := .ldarg 0) rfl).append (Straight.one rfl),
            fun _ => (Moves.one (.ldarg 0)).append (Moves.one .callBaseCtor)⟩
        obtain ⟨called, ho'⟩ := Step.open_of_code j.site hr ho base
        exact called.trans (defaults_step hs called.inRange ho' hd)
    exact ⟨d, ends hop hr ho hst init.grows (by simp [src]) init hf⟩

/-! A check of the source that makes a body tame. -/

end Job

mutual

/-- The value of an expression statement or of a return is no name and no `!=`. -/
def Stmt.isPlain : Stmt → Bool
  | .expr e | .ret (some e) _ => !Scope.mayStray e
  | .ret none _ | .declare .. | .assign .. => true
  | .loop _ (.mk body _) _ => Stmt.arePlain body
  | .cond (.mk _ (.mk body _) _) rest none _ => Stmt.arePlain body && Arm.arePlain rest
  | .cond (.mk _ (.mk body _) _) rest (some (.mk otherwise _)) _ =>
    Stmt.arePlain body && Arm.arePlain rest && Stmt.arePlain otherwise

def Stmt.arePlain : List Stmt → Bool
  | [] => true
  | s :: rest => s.isPlain && Stmt.arePlain rest

def Arm.arePlain : List Arm → Bool
  | [] => true
  | .mk _ (.mk body _) _ :: rest => Stmt.arePlain body && Arm.arePlain rest

end

namespace Draft

def Task.IsPlain : Task → Prop
  | .block ss => Stmt.arePlain ss = true
  | .one s => s.isPlain = true
  | .arms _ xs => ∀ x ∈ xs, Stmt.arePlain x.2.body.stmts = true

theorem arePlain_of_mem {as : List Arm} (h : Arm.arePlain as = true) {a : Arm} (ha : a ∈ as) :
    Stmt.arePlain a.body.stmts = true := by
  induction as with
  | nil => cases ha
  | cons b as ih =>
    obtain ⟨_, ⟨_, _⟩, _⟩ := b
    simp only [Arm.arePlain, Bool.and_eq_true] at h
    rcases List.mem_cons.1 ha with rfl | ha
    · exact h.1
    · exact ih h.2 ha

theorem Task.IsPlain.leads {site : Site} {t t' : Task} {d d' : Draft} (h : t.IsPlain)
    (hl : Leads site (t, d) (t', d')) : t'.IsPlain := by
  cases hl with
  | first => exact (Bool.and_eq_true_iff.1 h).1
  | rest => exact (Bool.and_eq_true_iff.1 h).2
  | @body _ _ _ body =>
    obtain ⟨_, _⟩ := body
    exact h
  | @otherwise _ _ first _ otherwise =>
    obtain ⟨_, ⟨_, _⟩, _⟩ := first
    rcases otherwise with _ | ⟨_, _⟩
    · rfl
    · exact (Bool.and_eq_true_iff.1 h).2
  | @arms _ _ _ first rest otherwise =>
    obtain ⟨c, ⟨body, bs⟩, s⟩ := first
    have both : Stmt.arePlain body = true ∧ Arm.arePlain rest = true := by
      rcases otherwise with _ | ⟨_, _⟩
      · exact Bool.and_eq_true_iff.1 h
      · exact Bool.and_eq_true_iff.1 (Bool.and_eq_true_iff.1 h).1
    intro x hx
    have all : Arm.arePlain (.mk c (.mk body bs) s :: rest) = true := by
      simp [Arm.arePlain, both]
    exact arePlain_of_mem all (List.of_mem_zip hx).2
  | arm => exact h _ List.mem_cons_self
  | nextArms => exact fun x hx => h x (List.mem_cons_of_mem _ hx)

end Draft

open Draft

theorem Job.tame_of_plain {j : Job} (h : Stmt.arePlain j.stmts = true) : j.Tame := by
  rintro s d ⟨d₀, -, hl⟩
  have plain : ∀ q, Relation.ReflTransGen (Leads j.site) (.block j.stmts, d₀) q → q.1.IsPlain := by
    intro q hq
    induction hq with
    | refl => exact h
    | tail _ hl ih => exact ih.leads hl
  have hp : s.isPlain = true := plain _ hl
  have calm {e : Expr} (hp : (!Scope.mayStray e) = true) :
      ∀ c, (j.site.scope d.locals).code e = .ok c → (j.site.scope d.locals).Tame e c.type := by
    intro c _ hm
    simp [hm] at hp
  match s with
  | .expr e | .ret (some e) _ => exact calm hp
  | .ret none _ | .declare .. | .assign .. | .loop .. | .cond .. => trivial

/-! A program to try the statements on. -/

/-- A loop with a choice, a call, and code behind returns:
```
Meter =>
  hits: i32 = 0
  count n: i32 =>
    while n > 0 =>
      if n == 2 => return twice(n), n = 1;
      elif n != 3 => hits = hits + 1;
      else => k: i32 = n;
      n = n - 1;
    return twice(hits)
    hits = 2
  twice n: i32 => return n + n
``` -/
def Program.meter : List Item :=
  let s : Span := ⟨0, 0⟩
  let name (n : String) : Expr := .ident n s
  let num (n : Nat) : Expr := .int n s
  let op (o : BinaryOp) (a b : Expr) : Expr := .binary o a b s
  let set (n : String) (e : Expr) : Stmt := .assign n s none e s
  let ret (e : Expr) : Stmt := .ret (some e) s
  let twice (e : Expr) : Expr := .call "twice" s [e] s
  let method (n : String) (body : List Stmt) : MethodDecl :=
    ⟨n, s, "i32", s, [⟨"n", "i32", s⟩], .mk body s, true, .static, s⟩
  let choice : Stmt := .cond
    (.mk (op .eq (name "n") (num 2)) (.mk [ret (twice (name "n")), set "n" (num 1)] s) s)
    [.mk (op .ne (name "n") (num 3)) (.mk [set "hits" (op .add (name "hits") (num 1))] s) s]
    (some (.mk [.assign "k" s (some "i32") (name "n") s] s)) s
  [.cls ⟨"Meter", s, true, [⟨"hits", "i32", true, true, some (num 0), s⟩],
    [method "count"
      [.loop (op .gt (name "n") (num 0)) (.mk [choice, set "n" (op .sub (name "n") (num 1))] s) s,
        ret (twice (name "hits")), set "hits" (num 2)],
      method "twice" [ret (op .add (name "n") (name "n"))]], s⟩]

theorem Program.build_meter : ∃ p warnings, build {} meter = .ok (p, warnings) := by
  obtain ⟨⟨p, warnings⟩, h⟩ := exists_eq_ok (x := build {} meter) (by decide +kernel)
  exact ⟨p, warnings, h⟩

theorem Program.exists_job_meter : ∃ j ∈ jobs {} meter, ∃ m labels warnings,
    j.compile = .ok (m, labels, warnings) := by
  have first : ((jobs {} meter).head?.any fun j => j.compile.isOk) = true := by decide +kernel
  obtain ⟨j, hj, hok⟩ := (Option.any_eq_true _ _).1 first
  obtain ⟨⟨m, labels, warnings⟩, h⟩ := exists_eq_ok hok
  exact ⟨j, List.mem_of_mem_head? hj, m, labels, warnings, h⟩

end ClassAsm
