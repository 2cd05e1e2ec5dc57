import ClassAsm.Proofs.Renaming.Statements

/-! Which warnings are given. The switches that mute warnings decide nothing else: a method that is
compiled under them goes through the same drafts as without muting, but for the warnings that are
left out. So the code, the failures and the order of the warnings are those of the compilation that
reports everything. -/

namespace ClassAsm

theorem WarningCode.value_injective : Function.Injective value := by
  intro c c' h
  cases c <;> cases c' <;> simp_all [value]

theorem Warning.isWarning_iff {w : Warning} {c : WarningCode} :
    w.diagnostic.isWarning c = true ↔ w.concern.code = c := by
  simp [Diagnostic.isWarning, diagnostic, WarningCode.value_injective.eq_iff]

/-- The numbers of errors and warnings overlap, the reports do not. -/
theorem Failure.isWarning_diagnostic (f : Failure) (c : WarningCode) :
    f.diagnostic.isWarning c = false := rfl

namespace Options

/-- The switches let a warning through. -/
def shows (o : Options) (w : Warning) : Bool :=
  match w.concern with
  | .mainNotDefined => o.requireMain && !o.muteMainNotDefined
  | .uselessCode => !o.muteUselessCode
  | .unreachableCode => !o.muteUnreachableCode
  | .invalidOperatorName _ | .unknownArchitecture _ => true

/-- The same trimming, with all warnings. -/
def unmuted (o : Options) : Options :=
  { trimUnreachableCode := o.trimUnreachableCode, trimUselessCode := o.trimUselessCode }

/-- The warnings that are left. -/
def shown (o : Options) (warnings : Array Warning) : Array Warning := warnings.filter o.shows

end Options

theorem Site.under_sig (s : Site) (o : Options) : (s.under o).sig = s.sig := rfl

theorem Site.under_options (s : Site) (o : Options) : (s.under o).options = o := rfl

def Stop.shown (o : Options) (s : Stop) : Stop := { s with warnings := o.shown s.warnings }

namespace Draft

def shown (o : Options) (d : Draft) : Draft := { d with warnings := o.shown d.warnings }

variable {o : Options} {site : Site}

/-- Warnings that are shown are added, others are not. -/
theorem warn_shown (d : Draft) (concern : Concern) (span : Span) :
    (d.warn concern span).shown o =
      if o.shows ⟨concern, some span⟩ then (d.shown o).warn concern span else d.shown o := by
  simp only [shown, warn, Options.shown, Array.filter_push]
  split <;> rfl

theorem spawnFresh_shown (d : Draft) (stem : String) (isMuted : Bool) :
    (d.shown o).spawnFresh stem isMuted =
      ((d.spawnFresh stem isMuted).1, (d.spawnFresh stem isMuted).2.shown o) := rfl

theorem branch_shown (d : Draft) (make : String → Instruction) (target : Nat) :
    (d.shown o).branch make target = (d.branch make target).shown o := rfl

theorem switchTo_shown (d : Draft) (segment : Nat) :
    (d.shown o).switchTo segment = (d.switchTo segment).shown o := rfl

theorem emitAll_shown (d : Draft) (code : List Instruction) :
    (d.shown o).emitAll code = (d.emitAll code).shown o := by
  induction code generalizing d with
  | nil => rfl
  | cons i code ih => exact ih (d.emit i)

theorem check_shown {α : Type} (d : Draft) (x : Except Failure α) :
    (d.shown o).check x = carry (Stop.shown o) id (d.check x) := by
  cases x <;> rfl

theorem join_shown (d : Draft) (after : Nat) :
    (d.shown o).join after = (d.join after).shown o := by
  rw [join, join, apply_ite (shown o)]
  rfl

/-! Statements without blocks. -/

theorem expr_shown (d : Draft) (e : Expr) : (d.shown o).expr (site.under o) e =
    carry (Stop.shown o) (Prod.map id (shown o)) (d.expr site e) := by
  refine carry_bind (d.check_shown _) fun c _ => ?_
  rw [emitAll_shown]
  rfl

theorem value_shown (d : Draft) (e : Expr) : (d.shown o).value (site.under o) e =
    carry (Stop.shown o) (Prod.map id (shown o)) (d.value site e) := by
  refine carry_bind (d.check_shown _) fun c _ => ?_
  rw [emitAll_shown]
  rfl

theorem bind_shown (d : Draft) (name : String) (type : TypeRef) (span : Span) :
    (d.shown o).bind (site.under o) name type span =
      carry (Stop.shown o) (Prod.map id (shown o)) (d.bind site name type span) := by
  cases found : d.locals.find? name with
  | some x =>
    rw [bind_of_some found, bind_of_some (d := d.shown o) found, apply_ite (carry _ _)]
    rfl
  | none =>
    rw [bind_of_none found, bind_of_none (d := d.shown o) found, apply_ite (carry _ _)]
    rfl

theorem declare_shown (d : Draft) (name : String) (span : Span) (typeName : String) :
    (d.shown o).declare (site.under o) name span typeName =
      carry (Stop.shown o) (shown o) (d.declare site name span typeName) := by
  refine carry_bind (d.check_shown _) fun type _ => ?_
  exact carry_bind (bind_shown d name type span) fun _ _ => rfl

theorem assignField_shown (d : Draft) (f : Field) (span : Span) (value : Expr) :
    (d.shown o).assignField (site.under o) f span value =
      carry (Stop.shown o) (shown o) (d.assignField site f span value) := by
  have begun : (if f.isStatic then d.shown o else (d.shown o).emit (.ldarg 0)) =
      (if f.isStatic then d else d.emit (.ldarg 0)).shown o := by
    rw [apply_ite (shown o)]
    rfl
  unfold assignField
  rw [begun, Site.under_sig]
  split
  · rfl
  · refine carry_bind (value_shown _ value) fun r _ => ?_
    dsimp only [Prod.map, id]
    split <;> rfl

theorem assignThrough_shown (d : Draft) (name : String) (span : Span) (slot : Nat) (type : TypeRef)
    (value : Expr) :
    (d.shown o).assignThrough (site.under o) name span slot type value =
      carry (Stop.shown o) (shown o) (d.assignThrough site name span slot type value) := by
  refine carry_bind (value_shown (d.emit (.ldloc slot)) value) fun r _ => ?_
  dsimp only [Prod.map, id]
  split <;> rfl

theorem define_shown (d : Draft) (name : String) (span : Span) (value : Expr)
    (declared : Option TypeRef) :
    (d.shown o).define (site.under o) name span value declared =
      carry (Stop.shown o) (shown o) (d.define site name span value declared) := by
  refine carry_bind (value_shown d value) fun r _ => ?_
  dsimp only [Prod.map, id]
  split
  · rfl
  · refine carry_bind (bind_shown r.2 name _ span) fun _ _ => ?_
    rfl

theorem assignLocal_shown (d : Draft) (name : String) (span : Span) (typeName : Option String)
    (value : Expr) :
    (d.shown o).assignLocal (site.under o) name span typeName value =
      carry (Stop.shown o) (shown o) (d.assignLocal site name span typeName value) := by
  cases typeName with
  | none => exact define_shown d name span value none
  | some text =>
    rw [assignLocal_some, assignLocal_some]
    refine carry_bind (f := id) ?_ fun declared _ => define_shown d name span value declared
    exact (congrArg (Except.map some) (d.check_shown _)).trans (carry_map _ fun _ => rfl)

theorem assign_shown (d : Draft) (name : String) (span : Span) (typeName : Option String)
    (value : Expr) :
    (d.shown o).assign (site.under o) name span typeName value =
      carry (Stop.shown o) (shown o) (d.assign site name span typeName value) := by
  have here : (d.shown o).assignLocal (site.under o) name span typeName value =
      carry (Stop.shown o) (shown o) (d.assignLocal site name span typeName value) :=
    assignLocal_shown d name span typeName value
  unfold assign
  rw [show (d.shown o).locals = d.locals from rfl]
  cases typeName with
  | some text => exact here
  | none =>
    cases d.locals.find? name with
    | none =>
      have field : ((site.under o).scope d.locals).field? name =
        (site.scope d.locals).field? name := rfl
      dsimp only
      rw [field]
      cases (site.scope d.locals).field? name with
      | none => exact here
      | some f => exact assignField_shown d f span value
    | some l =>
      dsimp only
      split
      · exact assignThrough_shown d name span l.1 l.2 value
      · exact here

theorem returnStmt_shown (d : Draft) (value : Option Expr) (span : Span) :
    (d.shown o).returnStmt (site.under o) value span =
      carry (Stop.shown o) (shown o) (d.returnStmt site value span) := by
  unfold returnStmt
  rw [Site.under_sig]
  cases value with
  | none =>
    change (if site.returnsVoid then _ else _) = _
    dsimp only
    split <;> rfl
  | some e =>
    refine carry_bind (expr_shown d e) fun r _ => ?_
    dsimp only [Prod.map, id]
    split <;> rfl

theorem condition_shown (d : Draft) (a : Arm) :
    (d.shown o).condition (site.under o) a =
      carry (Stop.shown o) (Prod.map id (shown o)) (d.condition site a) :=
  carry_bind (value_shown (d.spawnFresh "Cond" false).2 a.condition) fun _ _ => rfl

theorem conditions_shown (d : Draft) (as : List Arm) :
    (d.shown o).conditions (site.under o) as =
      carry (Stop.shown o) (Prod.map id (shown o)) (d.conditions site as) := by
  induction as generalizing d with
  | nil => rfl
  | cons a as ih =>
    refine carry_bind (condition_shown d a) fun r _ => ?_
    exact carry_bind (ih r.2) fun _ _ => rfl

/-! The two places where switches are looked at. -/

variable (h : site.options = o.unmuted)
include h

theorem exprStmt_shown (d : Draft) (e : Expr) :
    (d.shown o).exprStmt (site.under o) e =
      carry (Stop.shown o) (shown o) (d.exprStmt site e) := by
  have noted : (d.shown o).noted (site.under o) e = (d.noted site e).shown o := by
    have shows : o.shows ⟨.uselessCode, some e.span⟩ = !o.muteUselessCode := rfl
    have loud : o.unmuted.muteUselessCode = false := rfl
    rw [Draft.noted, Draft.noted, Site.under_options, h, loud, apply_ite (shown o), warn_shown, shows]
    cases e.isCall <;> cases o.muteUselessCode <;> rfl
  rw [exprStmt_eq, exprStmt_eq, noted, Site.under_options, h,
    show o.unmuted.trimUselessCode = o.trimUselessCode from rfl]
  split
  · rfl
  · refine carry_bind (expr_shown _ e) fun r _ => ?_
    rw [carry, apply_ite (shown o)]
    rfl

theorem admit?_shown (d : Draft) (span : Span) : (d.shown o).admit? (site.under o) span =
    ((d.admit? site span).1.shown o, (d.admit? site span).2) := by
  have reported : (if o.muteUnreachableCode then d.shown o
      else (d.shown o).warn .unreachableCode span) = (d.warn .unreachableCode span).shown o := by
    have shows : o.shows ⟨.unreachableCode, some span⟩ = !o.muteUnreachableCode := rfl
    rw [warn_shown, shows]
    cases o.muteUnreachableCode <;> rfl
  have loud : o.unmuted.muteUnreachableCode = false := rfl
  unfold admit?
  rw [Site.under_options, h, reported, loud,
    show o.unmuted.trimUnreachableCode = o.trimUnreachableCode from rfl,
    show (d.shown o).isDead = d.isDead from rfl,
    show (d.shown o).segment (d.shown o).current = d.segment d.current from rfl]
  dsimp only [Bool.false_eq_true, if_false]
  split
  · rfl
  split
  · rw [apply_ite (shown o)]
    rfl
  split <;> rfl

/-! Blocks. -/

omit h

mutual

theorem stmt_shown (h : site.options = o.unmuted) (d : Draft) : ∀ s : Stmt,
    (d.shown o).stmt (site.under o) s = carry (Stop.shown o) (shown o) (d.stmt site s)
  | .expr e => exprStmt_shown h d e
  | .declare name nameSpan typeName _ => declare_shown d name nameSpan typeName
  | .assign name nameSpan typeName value _ => assign_shown d name nameSpan typeName value
  | .ret value span => returnStmt_shown d value span
  | .loop condition (.mk body _) _ => by
    simp only [stmt, spawnFresh_shown, branch_shown, switchTo_shown]
    refine carry_bind (value_shown _ condition) fun r _ => ?_
    refine carry_bind (stmts_shown h (r.2.branch .brfalse _) body) fun d _ => ?_
    rw [join_shown, switchTo_shown]
    rfl
  | .cond first rest none _ => by
    simp only [stmt, spawnFresh_shown]
    refine carry_bind (condition_shown _ first) fun r _ => ?_
    refine carry_bind (conditions_shown r.2 rest) fun rs _ => ?_
    simp only [Prod.map, id, ok_bind, join_shown]
    refine carry_bind (arm_shown h _ _ _ first) fun d _ => ?_
    exact carry_bind (arms_shown h d _ _ rest) fun _ _ => rfl
  | .cond first rest (some (.mk body _)) _ => by
    simp only [stmt, spawnFresh_shown]
    refine carry_bind (condition_shown _ first) fun r _ => ?_
    refine carry_bind (conditions_shown r.2 rest) fun rs _ => ?_
    refine carry_bind (stmts_shown h rs.2 body) fun d _ => ?_
    simp only [Prod.map, id, join_shown]
    refine carry_bind (arm_shown h _ _ _ first) fun d _ => ?_
    exact carry_bind (arms_shown h d _ _ rest) fun _ _ => rfl

theorem arm_shown (h : site.options = o.unmuted) (d : Draft) (after segment : Nat) : ∀ a : Arm,
    (d.shown o).arm (site.under o) after segment a =
      carry (Stop.shown o) (shown o) (d.arm site after segment a)
  | .mk _ (.mk body _) _ => by
    refine carry_bind (stmts_shown h (d.switchTo segment) body) fun d _ => ?_
    exact congrArg Except.ok (join_shown d after)

theorem arms_shown (h : site.options = o.unmuted) (d : Draft) (after : Nat) :
    ∀ (segments : List Nat) (as : List Arm),
    (d.shown o).arms (site.under o) after segments as =
      carry (Stop.shown o) (shown o) (d.arms site after segments as)
  | segment :: segments, a :: rest => by
    simp only [arms]
    exact carry_bind (arm_shown h d after segment a) fun d _ => arms_shown h d after segments rest
  | [], _ => by simp only [arms, carry]
  | _ :: _, [] => by simp only [arms, carry]

theorem stmts_shown (h : site.options = o.unmuted) (d : Draft) : ∀ ss : List Stmt,
    (d.shown o).stmts (site.under o) ss = carry (Stop.shown o) (shown o) (d.stmts site ss)
  | [] => by simp only [stmts, carry]
  | s :: rest => by
    simp only [stmts, admit?_shown h]
    split
    · exact carry_bind (stmt_shown h _ s) fun d _ => stmts_shown h d rest
    · rfl

end

end Draft
end ClassAsm
