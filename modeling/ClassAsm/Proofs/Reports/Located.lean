import ClassAsm.Proofs.Program.Jobs
import ClassAsm.Proofs.Renaming.Members

/-! Everything that is reported while a program is built has a place: every failure, and every
warning that is given before the last one. There is one lemma for each function that can fail, and
none of them looks at what the function computes. -/

namespace ClassAsm

/-! Steps that can fail, with what holds in either case. -/

section

variable {ε ε' α β γ : Type} {F : ε → Prop} {P : α → Prop} {Q : β → Prop}

/-- What a result is, and what the failure is if there is none. -/
def Ends (F : ε → Prop) (P : α → Prop) : Except ε α → Prop
  | .ok a => P a
  | .error e => F e

@[simp] theorem ends_ok {a : α} : Ends F P (.ok a) ↔ P a := Iff.rfl

@[simp] theorem ends_error {e : ε} : Ends F P (.error e) ↔ F e := Iff.rfl

theorem Ends.bind {x : Except ε α} {k : α → Except ε β} (hx : Ends F P x)
    (hk : ∀ a, P a → Ends F Q (k a)) : Ends F Q (x >>= k) := by
  cases x with
  | error e => exact hx
  | ok a => exact hk a hx

theorem Ends.map {x : Except ε α} {g : α → β} (hx : Ends F P x) (hg : ∀ a, P a → Q (g a)) :
    Ends F Q (x.map g) := by
  cases x with
  | error e => exact hx
  | ok a => exact hg a hx

theorem Ends.mapError {x : Except ε α} {G : ε' → Prop} {g : ε → ε'} (hx : Ends F P x)
    (hg : ∀ e, F e → G (g e)) : Ends G P (x.mapError g) := by
  cases x with
  | error e => exact hg e hx
  | ok a => exact hx

theorem Ends.foldlM {f : α → β → Except ε α} (hf : ∀ a b, P a → Ends F P (f a b)) (bs : List β)
    {a : α} (h : P a) : Ends F P (bs.foldlM f a) := by
  induction bs generalizing a with
  | nil => exact h
  | cons b bs ih =>
    rw [List.foldlM_cons]
    exact (hf a b h).bind fun _ h => ih h

theorem Ends.mapM {f : α → Except ε β} (hf : ∀ a, Ends F (fun _ => True) (f a)) (as : List α) :
    Ends F (fun _ => True) (as.mapM f) := by
  induction as with
  | nil => trivial
  | cons a as ih =>
    rw [List.mapM_cons]
    exact (hf a).bind fun _ _ => ih.bind fun _ _ => trivial

end

def Failure.Located (f : Failure) : Prop := f.span.isSome

@[simp] theorem Fault.located_at (f : Fault) (s : Span) : (f.at s).Located := rfl

/-- The warning has a place; the only one without is about the whole program. -/
def Warning.Located (w : Warning) : Prop := w.span.isSome ∧ w.concern ≠ .mainNotDefined

def LocatedAll (ws : Array Warning) : Prop := ∀ w ∈ ws, w.Located

def Stop.Located (s : Stop) : Prop := s.failure.Located ∧ LocatedAll s.warnings

theorem LocatedAll.push {ws : Array Warning} {c : Concern} {span : Span} (h : LocatedAll ws)
    (hc : c ≠ .mainNotDefined) : LocatedAll (ws.push ⟨c, some span⟩) := by
  intro w hw
  rcases Array.mem_push.1 hw with hw | rfl
  · exact h w hw
  · exact ⟨rfl, hc⟩

/-- The result is there, or the failure has a place. -/
abbrev Blames {α : Type} (x : Except Failure α) : Prop := Ends Failure.Located (fun _ => True) x

/-! Expressions. -/

namespace Scope

variable (s : Scope) {standIn : StandIn}

theorem resolveType_blames (name : String) (span : Span) : Blames (s.resolveType name span) := by
  unfold resolveType
  split <;> simp

theorem needValue_blames (span : Span) (c : Code) : Blames (s.needValue span c) := by
  unfold needValue
  split <;> simp

theorem operator_blames (t : TypeRef) (op : Operation) (span : Span) :
    Blames (s.operator t op span) := by
  unfold operator
  split
  · simp
  · split <;> simp

theorem addressArgument_blames (callee param : String) (t : TypeRef) (arg : Expr) :
    Blames (s.addressArgument callee param t arg) := by
  unfold addressArgument
  dsimp only
  split
  · simp
  · split <;> simp

theorem callee_blames (name : String) (span : Span) : Blames (s.callee name span) := by
  unfold callee
  split
  · split <;> simp
  · simp

/-- What stands for a field blames nothing that has no place. -/
abbrev StandsBlamed (standIn : StandIn) : Prop := ∀ f x, standIn f = some x → Blames x

theorem nameCode_blames (stands : StandsBlamed standIn) (name : String) (span : Span) :
    Blames (s.nameCode standIn name span) := by
  unfold nameCode
  split
  · trivial
  split
  · simp
  dsimp only
  split
  · trivial
  split
  · trivial
  split
  · simp
  · next h => exact (stands _ _ h).map fun _ _ => trivial

mutual

theorem codeWith_blames (stands : StandsBlamed standIn) : ∀ e : Expr, Blames (s.codeWith standIn e)
  | .int .. | .float .. | .str .. => by
    rw [codeWith]
    trivial
  | .ident name span => by
    rw [codeWith]
    exact s.nameCode_blames stands name span
  | .binary op left right span => by
    rw [codeWith]
    refine (codeWith_blames stands left).bind fun c _ => (s.needValue_blames _ c).bind fun l _ =>
      (s.operator_blames ..).bind fun m _ => (codeWith_blames stands right).bind fun c _ =>
      (s.needValue_blames _ c).bind fun r _ => ?_
    dsimp only
    split <;> simp
  | .unary op operand span => by
    rw [codeWith]
    refine (codeWith_blames stands operand).bind fun c _ => (s.needValue_blames _ c).bind
      fun c _ => ?_
    split
    · exact (s.operator_blames ..).bind fun m _ => ends_ok.2 trivial
    · split <;> simp
  | .call name nameSpan args span => by
    rw [codeWith]
    refine (s.callee_blames name nameSpan).bind fun sig _ => ?_
    split
    · simp
    · exact (argsWith_blames stands name args sig.params).bind fun given _ => ends_ok.2 trivial
  | .cast operand target targetSpan span => by
    rw [codeWith]
    refine (codeWith_blames stands operand).bind fun c _ => (s.needValue_blames _ c).bind fun c _ =>
      (s.resolveType_blames target targetSpan).bind fun t _ => ?_
    split <;> simp

theorem argsWith_blames (stands : StandsBlamed standIn) (name : String) :
    ∀ (args : List Expr) (params : List (String × TypeRef)),
      Blames (s.argsWith standIn name args params)
  | arg :: args, (param, type) :: params => by
    rw [argsWith]
    have further (here : List Instruction) : Blames (do
        let rest ← s.argsWith standIn name args params
        .ok (here ++ rest)) :=
      (argsWith_blames stands name args params).bind fun rest _ => ends_ok.2 trivial
    split
    · exact (s.addressArgument_blames ..).bind fun here _ => further here
    · refine (codeWith_blames stands arg).bind fun c _ => (s.needValue_blames _ c).bind
        fun c _ => ?_
      split
      · exact further c.instructions
      · simp [bind, Except.bind]
  | [], _ => by simp [argsWith]
  | _ :: _, [] => by simp [argsWith]

end

theorem codeInside_blames (n : Nat) (inlining : List String) (e : Expr) :
    Blames (s.codeInside n inlining e) := by
  induction n generalizing inlining e with
  | zero =>
    rw [codeInside]
    refine s.codeWith_blames (fun f x h => ?_) e
    cases h
  | succ n ih =>
    rw [codeInside]
    refine s.codeWith_blames (fun f x h => ?_) e
    split at h
    · cases h
    · obtain ⟨default, -, rfl⟩ := Option.map_eq_some_iff.1 h
      refine (ih _ default).bind fun c _ => (s.needValue_blames _ c).bind fun c _ => ?_
      split <;> simp

theorem code_blames (e : Expr) : Blames (s.code e) := s.codeInside_blames _ _ e

theorem valueCode_blames (e : Expr) : Blames (s.valueCode e) :=
  (s.code_blames e).bind fun c _ => s.needValue_blames _ c

end Scope

/-! Bodies. A draft starts with the warnings before it, so that with them the warnings at its end
have places. -/

namespace Draft

variable {site : Site} {d : Draft}

/-- The warnings that the draft carries have places. -/
def Located (d : Draft) : Prop := LocatedAll d.warnings

/-- A draft with located warnings comes out, or a failure with a place. -/
abbrev Tells {α : Type} (of : α → Draft) (x : Except Stop α) : Prop :=
  Ends Stop.Located (fun a => (of a).Located) x

theorem Located.stop (h : d.Located) (f : Fault) (s : Span) : (d.stop (f.at s)).Located := ⟨rfl, h⟩

theorem Located.check {α : Type} (h : d.Located) {x : Except Failure α} (hx : Blames x) :
    Ends Stop.Located (fun _ => True) (d.check x) := hx.mapError fun _ hf => ⟨hf, h⟩

@[simp] theorem located_emit {i : Instruction} : (d.emit i).Located ↔ d.Located := Iff.rfl

@[simp] theorem located_emitAll {code : List Instruction} :
    (d.emitAll code).Located ↔ d.Located := by
  unfold emitAll
  induction code generalizing d with
  | nil => rfl
  | cons i code ih => rw [List.foldl_cons, ih, located_emit]

@[simp] theorem located_addLocal {name : String} {t : TypeRef}
    (new : d.locals.find? name = none) : (d.addLocal name t).Located ↔ d.Located := Iff.rfl

@[simp] theorem located_branch {make : String → Instruction} {target : Nat} :
    (d.branch make target).Located ↔ d.Located := Iff.rfl

@[simp] theorem located_spawnFresh {stem : String} {muted : Bool} :
    (d.spawnFresh stem muted).2.Located ↔ d.Located := Iff.rfl

@[simp] theorem located_switchTo {i : Nat} : (d.switchTo i).Located ↔ d.Located := Iff.rfl

@[simp] theorem located_enterUnreachable : d.enterUnreachable.Located ↔ d.Located := Iff.rfl

@[simp] theorem located_join {after : Nat} : (d.join after).Located ↔ d.Located := by
  unfold join
  split <;> simp

theorem Located.warn (h : d.Located) {c : Concern} (hc : c ≠ .mainNotDefined) (span : Span) :
    (d.warn c span).Located := LocatedAll.push h hc

variable (h : d.Located)

include h

theorem expr_tells (e : Expr) : Tells Prod.snd (d.expr site e) :=
  (h.check ((site.scope d.locals).code_blames e)).bind fun _ _ => located_emitAll.2 h

theorem value_tells (e : Expr) : Tells Prod.snd (d.value site e) :=
  (h.check ((site.scope d.locals).valueCode_blames e)).bind fun _ _ => located_emitAll.2 h

theorem bind_tells (name : String) (t : TypeRef) (span : Span) :
    Tells Prod.snd (d.bind site name t span) := by
  unfold Draft.bind
  split
  · split
    · exact h
    · exact h.stop ..
  · split
    · exact h.stop ..
    · exact h

theorem declare_tells (name : String) (span : Span) (typeName : String) :
    Tells id (d.declare site name span typeName) :=
  (h.check ((site.scope d.locals).resolveType_blames typeName span)).bind fun t _ =>
    (bind_tells h name t span).bind fun _ h => h

theorem assignField_tells (f : Field) (span : Span) (e : Expr) :
    Tells id (d.assignField site f span e) := by
  unfold assignField
  split
  · exact h.stop ..
  have ready : (if f.isStatic then d else d.emit (.ldarg 0)).Located := by split <;> exact h
  refine (value_tells ready e).bind fun (got, d) h => ?_
  dsimp only
  split
  · exact h.stop ..
  · exact h

theorem assignThrough_tells (name : String) (span : Span) (slot : Nat) (t : TypeRef) (e : Expr) :
    Tells id (d.assignThrough site name span slot t e) := by
  refine (value_tells (located_emit.2 h) e).bind fun (got, d) h => ?_
  dsimp only
  split
  · exact h.stop ..
  · exact h

theorem assignLocal_tells (name : String) (span : Span) (typeName : Option String) (e : Expr) :
    Tells id (d.assignLocal site name span typeName e) := by
  have defined (declared : Option TypeRef) : Tells id (d.define site name span e declared) := by
    refine (value_tells h e).bind fun (got, d) h => ?_
    dsimp only
    split
    · exact h.stop ..
    · exact (bind_tells h name _ span).bind fun _ h => ends_ok.2 h
  cases typeName with
  | none => exact defined none
  | some text =>
    rw [assignLocal_some]
    have resolved := h.check ((site.scope d.locals).resolveType_blames text span)
    exact (resolved.map (Q := fun _ => True) fun _ _ => trivial).bind fun declared _ =>
      defined declared

theorem assign_tells (name : String) (span : Span) (typeName : Option String) (e : Expr) :
    Tells id (d.assign site name span typeName e) := by
  unfold assign
  split
  · split
    · exact assignField_tells h ..
    · exact assignLocal_tells h ..
  · split
    · exact assignThrough_tells h ..
    · exact assignLocal_tells h ..
  · exact assignLocal_tells h ..

theorem exprStmt_tells (e : Expr) : Tells id (d.exprStmt site e) := by
  have noted : (if e.isCall || site.options.muteUselessCode then d
      else d.warn .uselessCode e.span).Located := by
    split
    · exact h
    · exact h.warn (by decide) _
  unfold exprStmt
  dsimp only
  split
  · exact noted
  refine (expr_tells noted e).bind fun (t, d) h => ?_
  dsimp only [ends_ok, id]
  split <;> exact h

theorem returnStmt_tells (e : Option Expr) (span : Span) :
    Tells id (d.returnStmt site e span) := by
  unfold returnStmt
  dsimp only
  split
  · refine (expr_tells h _).bind fun (t, d) h => ?_
    dsimp only
    split
    · exact h.stop ..
    · exact h
  · split
    · exact h
    · exact h.stop ..

theorem condition_tells (a : Arm) : Tells Prod.snd (d.condition site a) :=
  (value_tells (located_spawnFresh.2 h) a.condition).bind fun _ h => located_branch.2 h

omit h in
theorem conditions_tells (as : List Arm) (h : d.Located) :
    Tells Prod.snd (d.conditions site as) := by
  induction as generalizing d with
  | nil => exact h
  | cons a as ih =>
    rw [conditions]
    exact (condition_tells h a).bind fun _ h => (ih h).bind fun _ h => h

theorem admit?_located (span : Span) : (d.admit? site span).1.Located := by
  have warned : (if site.options.muteUnreachableCode then d
      else d.warn .unreachableCode span).Located := by
    split
    · exact h
    · exact h.warn (by decide) _
  rcases he : d.admit? site span with ⟨d', b⟩
  cases admits he with
  | running | muted => exact h
  | mutedFresh => exact located_enterUnreachable.2 h
  | dropped => exact warned
  | kept => exact located_enterUnreachable.2 warned

omit h

mutual

theorem stmt_tells {d : Draft} (h : d.Located) : ∀ s : Stmt, Tells id (d.stmt site s)
  | .expr e => by
    rw [stmt]
    exact exprStmt_tells h e
  | .declare name nameSpan type span => by
    rw [stmt]
    exact declare_tells h ..
  | .assign name nameSpan type e span => by
    rw [stmt]
    exact assign_tells h ..
  | .ret e span => by
    rw [stmt]
    exact returnStmt_tells h e span
  | .loop c (.mk body span) loopSpan => by
    rw [stmt]
    refine (value_tells (d := (((d.spawnFresh "Cond" false).2.spawnFresh "AfterCond" false).2.branch
      .br _).switchTo _) (by simpa using h) c).bind fun (_, d) h => ?_
    exact (stmts_tells (located_branch.2 h) body).bind fun d h => by simpa using h
  | .cond (.mk c (.mk body span) armSpan) rest otherwise condSpan => by
    rw [stmt]
    refine (condition_tells (located_spawnFresh.2 h) _).bind fun (segment, d) h =>
      (conditions_tells rest h).bind fun (segments, d) h => ?_
    have filled {d : Draft} (h : d.Located) (after : Nat) : Tells id (do
        let d ← (d.join after).arm site after segment (.mk c (.mk body span) armSpan)
        let d ← d.arms site after segments rest
        .ok (d.switchTo after)) :=
      (arm_tells (located_join.2 h) after segment (.mk c (.mk body span) armSpan)).bind fun d h =>
        (arms_tells h after segments rest).bind fun d h => ends_ok.2 (located_switchTo.2 h)
    match otherwise with
    | none => exact filled h _
    | some (.mk body' _) => exact (stmts_tells h body').bind fun d h => filled h _

theorem arm_tells {d : Draft} (h : d.Located) (after segment : Nat) :
    ∀ a : Arm, Tells id (d.arm site after segment a)
  | .mk c (.mk body span) armSpan => by
    rw [arm]
    exact (stmts_tells (located_switchTo.2 h) body).bind fun d h => located_join.2 h

theorem arms_tells {d : Draft} (h : d.Located) (after : Nat) :
    ∀ (segments : List Nat) (as : List Arm), Tells id (d.arms site after segments as)
  | segment :: segments, a :: rest => by
    rw [arms]
    exact (arm_tells h after segment a).bind fun d h => arms_tells h after segments rest
  | [], _ => by simpa [arms] using h
  | _ :: _, [] => by simpa [arms] using h

theorem stmts_tells {d : Draft} (h : d.Located) : ∀ ss : List Stmt, Tells id (d.stmts site ss)
  | [] => by
    rw [stmts]
    exact h
  | s :: rest => by
    rw [stmts]
    have admitted : (d.admit? site s.span).1.Located := admit?_located h s.span
    dsimp only
    split
    · exact (stmt_tells admitted s).bind fun d h => stmts_tells h rest
    · exact admitted

end

/-! Whole methods. -/

theorem params_tells (h : d.Located) (index : Nat) (ps : List (Param × TypeRef)) :
    Tells id (d.params site index ps) := by
  induction ps generalizing d index with
  | nil => exact h
  | cons p ps ih =>
    obtain ⟨p, t⟩ := p
    by_cases new : d.locals.find? p.name = none
    · rw [params_cons_of_new new]
      split
      · exact h.stop ..
      · exact ih (located_emitAll.2 ((located_addLocal new).2 h)) _
    · rw [params_cons_of_known new]
      exact h.stop ..

theorem defaults_tells (h : d.Located) (isStatic : Bool) (fs : List Field) :
    Tells id (d.defaults site isStatic fs) := by
  induction fs generalizing d with
  | nil => exact h
  | cons f fs ih =>
    rw [defaults]
    split
    · exact ih h
    split
    · exact ih h
    have ready : (if isStatic then d else d.emit (.ldarg 0)).Located := by split <;> exact h
    refine (value_tells ready _).bind fun (got, d) h => ?_
    dsimp only
    split
    · exact h.stop ..
    · exact ih h

theorem closeSegment_tells (span : Span) (h : d.Located) (i : Nat) :
    Tells id (closeSegment site span d i) := by
  unfold closeSegment
  dsimp only
  split
  · exact h
  split
  · exact h
  split
  · exact h
  · exact Located.stop (d := d.switchTo i) h ..

theorem finish_tells (h : d.Located) (span : Span) : Tells Prod.snd (d.finish site span) :=
  (Ends.foldlM (fun _ i h => closeSegment_tells span h i) _ h).bind fun _ h => h

theorem source_tells (h : d.Located) (source : MethodSource) :
    Tells Prod.snd (d.source site source) := by
  cases source with
  | declared decl =>
    exact (params_tells h 0 _).bind fun d h => (stmts_tells h _).bind fun d h => finish_tells h _
  | initializer isStatic =>
    have ready : (if isStatic then d else (d.emit (.ldarg 0)).emit .callBaseCtor).Located := by
      split <;> exact h
    exact (defaults_tells ready isStatic _).bind fun d h => finish_tells h _

end Draft

theorem Method.compile_tells (m : Method) (site : Site) (source : MethodSource) (labels : Nat)
    {ws : Array Warning} (h : LocatedAll ws) :
    Ends Stop.Located (fun s => LocatedAll s.2.2) (m.compile site source labels ws) :=
  (Draft.source_tells (d := Draft.start labels ws) h source).bind fun _ h => h

/-! Declarations. -/

namespace Outline

variable {r : Registry} {ns : Nat}

theorem resolve_blames (name : String) (span : Span) : Blames (resolve r ns name span) := by
  unfold resolve
  split <;> simp

theorem addField_blames (c : Class) (f : FieldDecl) : Blames (addField r ns c f) := by
  refine (resolve_blames ..).bind fun t _ => ?_
  split <;> simp

theorem signature_blames (c : Class) (m : MethodDecl) : Blames (signature r ns c m) :=
  (resolve_blames ..).bind fun _ _ =>
    (Ends.mapM (fun _ => (resolve_blames ..).bind fun _ _ => ends_ok.2 trivial) _).bind fun _ _ =>
      ends_ok.2 trivial

theorem addMethod_tells (c : Class) {ws : Array Warning} (h : LocatedAll ws) (m : MethodDecl) :
    Ends Stop.Located (fun s => LocatedAll s.2) (addMethod r ns (c, ws) m) := by
  refine ((signature_blames c m).mapError (g := (Stop.mk · ws)) fun f hf => ⟨hf, h⟩).bind
    fun sig _ => ?_
  have added (s : Class × Array Warning) (h : LocatedAll s.2) :
      Ends Stop.Located (fun s => LocatedAll s.2) (withMethod m sig s) := by
    unfold withMethod
    split
    · exact h
    · exact ⟨rfl, h⟩
  cases operatorKey? m with
  | none => exact added (c, ws) h
  | some key =>
    by_cases hk : Operation.keys.contains key = true
    · simp only [hk, if_true]
      exact added (c.registerOperator key m.name, ws) h
    · simp only [hk]
      exact added (c, ws.push ⟨.invalidOperatorName m.name, some m.nameSpan⟩) (h.push (by simp))

theorem ofPlaced_tells (void : ClassId) {ws : Array Warning} (h : LocatedAll ws) (p : Placed) :
    Ends Stop.Located (fun s => LocatedAll s.2) (ofPlaced r void ws p) := by
  rw [ofPlaced_eq]
  have fields := Ends.foldlM (P := fun _ => True)
    (fun c f _ => @addField_blames r p.nspace c f) p.decl.fields
    (a := shell r p) trivial
  exact (fields.mapError (g := (Stop.mk · ws)) fun f hf => ⟨hf, h⟩).bind fun c _ =>
    (Ends.foldlM (P := fun s => LocatedAll s.2)
      (fun s m h => addMethod_tells s.1 h m) p.decl.methods (a := (c, ws)) h).bind fun s h =>
        ends_ok.2 h

end Outline

theorem Placement.add_blames (p : Placement) (i : Item) : Blames (p.add i) := by
  cases i with
  | nspace => trivial
  | cls decl =>
    unfold add
    dsimp only
    split <;> simp

namespace Program

theorem outlines_tells (r : Registry) (void : ClassId) (placed : List Placed) :
    Ends Stop.Located (fun s => LocatedAll s.2) (outlines r void placed) := by
  rw [outlines_eq]
  refine Ends.bind (P := fun s => LocatedAll s.2) (Ends.foldlM (fun s p h => ?_) placed ?_)
    fun s h => ends_ok.2 h
  · exact (Outline.ofPlaced_tells void h p).bind fun s h => ends_ok.2 h
  · exact fun w hw => absurd hw (Array.not_mem_empty w)

theorem compileClass_tells (d : Declared) (options : Options) (p : Progress) (o : Outline)
    (h : LocatedAll p.warnings) :
    Ends Stop.Located (fun p => LocatedAll p.warnings) (d.compileClass options p o) := by
  rw [Declared.compileClass]
  refine (Ends.foldlM (P := fun s => LocatedAll s.2.2) (fun s m h => ?_) _ h).bind fun s h =>
    ends_ok.2 h
  exact (m.1.compile_tells _ m.2 s.2.1 h).bind fun s h => ends_ok.2 h

/-- A build fails at some place; and but for the one that a program without an entry point gets, its
warnings have places. -/
theorem build_tells (options : Options) (items : List Item) :
    Ends Stop.Located (fun b => ∃ ws, LocatedAll ws ∧
      b.2 = ws ++ mainWarning options b.1.hasMain) (build options items) := by
  have none : LocatedAll #[] := fun w hw => absurd hw (Array.not_mem_empty w)
  have placed := Ends.foldlM (P := fun _ => True) (fun p i _ => Placement.add_blames p i) items
    (a := { registry := Registry.base }) trivial
  rw [build_eq, declare_eq, bind_assoc]
  refine (placed.mapError (g := (Stop.mk · #[])) fun f hf => ⟨hf, none⟩).bind fun p _ => ?_
  rw [bind_assoc]
  refine (outlines_tells ..).bind fun s h => ?_
  rw [ok_bind]
  refine (Ends.foldlM (P := fun p => LocatedAll p.warnings)
    (fun p o h => compileClass_tells _ options p o h) _ h).bind fun p h => ⟨_, h, rfl⟩

end Program
end ClassAsm
