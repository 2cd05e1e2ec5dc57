import ClassAsm.Proofs.Method.Emits
import ClassAsm.Proofs.Renaming.Drafts

/-! Statements under a renaming. They edit the renamed draft in the same way. -/

namespace ClassAsm.Draft

/-- A local gets a value, and has the declared type if one is declared. -/
def define (d : Draft) (site : Site) (name : String) (span : Span) (value : Expr)
    (declared : Option TypeRef) : Except Stop Draft := do
  let (got, d) ← d.value site value
  let type := declared.getD got
  if type ≠ got then
    .error (d.stop ((Fault.declarationMismatch name (site.showType type)
      (site.showType got)).at span))
  else
    let (slot, d) ← d.bind site name type span
    .ok (d.emit (.stloc slot))

theorem assignLocal_some (d : Draft) (site : Site) (name : String) (span : Span) (text : String)
    (value : Expr) : d.assignLocal site name span (some text) value =
      ((d.check ((site.scope d.locals).resolveType text span)).map some >>=
        d.define site name span value) := rfl

variable {ρ : Renaming} {site site' : Site} (h : site.RenamesTo ρ site')

include h

theorem expr_rename (d : Draft) (e : Expr) :
    (d.rename ρ).expr site' (e.mapSpan ρ.span) =
      carry (·.rename ρ) (ρ.withDraft (·.rename ρ)) (d.expr site e) := by
  refine carry_bind (d.check_rename (Scope.code_rename (h.scope d.locals) e)) fun c hc => ?_
  have straight := (Scope.code_leaves h.installed (check_eq_ok.1 hc)).straight
  rw [Code.rename, emitAll_rename d straight]
  rfl

theorem value_rename (d : Draft) (e : Expr) :
    (d.rename ρ).value site' (e.mapSpan ρ.span) =
      carry (·.rename ρ) (ρ.withDraft (·.rename ρ)) (d.value site e) := by
  refine carry_bind (d.check_rename (Scope.valueCode_rename (h.scope d.locals) e)) fun c hc => ?_
  have straight := (Scope.valueCode_leaves h.installed (check_eq_ok.1 hc)).straight
  rw [Code.rename, emitAll_rename d straight]
  rfl

theorem bind_rename (d : Draft) (name : String) (type : TypeRef) (span : Span) :
    (d.rename ρ).bind site' name (type.rename ρ) (ρ.span span) =
      carry (·.rename ρ) (ρ.withDraft id) (d.bind site name type span) := by
  have renamed : (d.rename ρ).locals = d.locals.rename ρ := rfl
  cases found : d.locals.find? name with
  | none =>
    rw [bind_of_none found, bind_of_none (Locals.find?_rename_eq_none found), addLocal_rename,
      renamed, Locals.isFull_rename, Locals.size_rename]
    split <;> rfl
  | some l =>
    obtain ⟨slot, existing⟩ := l
    have found' : (d.rename ρ).locals.find? name = some (slot, existing.rename ρ) := by
      rw [renamed, Locals.find?_rename, found, Option.map_some]
    simp only [bind_of_some found, bind_of_some found', TypeRef.rename_inj, h.showType]
    split <;> rfl

theorem declare_rename (d : Draft) (name : String) (span : Span) (typeName : String) :
    (d.rename ρ).declare site' name (ρ.span span) typeName =
      carry (·.rename ρ) (·.rename ρ) (d.declare site name span typeName) := by
  refine carry_bind (d.check_rename (Scope.resolveType_rename (h.scope d.locals) typeName span))
    fun type _ => ?_
  exact carry_bind (bind_rename h d name type span) fun _ _ => rfl

theorem assignField_rename (d : Draft) (f : Field) (span : Span) (value : Expr) :
    (d.rename ρ).assignField site' (f.rename ρ) (ρ.span span) (value.mapSpan ρ.span) =
      carry (·.rename ρ) (·.rename ρ) (d.assignField site f span value) := by
  have receiver : site'.sig.takesReceiver = site.sig.takesReceiver := by rw [h.sig]; rfl
  have target : site'.registry.fieldTarget site'.owner (f.rename ρ) =
      site.registry.fieldTarget site.owner f := by rw [h.owner, h.registry.fieldTarget]
  have this (d : Draft) : (d.rename ρ).emit (.ldarg 0) = (d.emit (.ldarg 0)).rename ρ :=
    emit_rename d (.ldarg 0)
  unfold assignField
  rw [show (f.rename ρ).isStatic = f.isStatic from rfl, receiver, this, ← apply_ite (rename ρ)]
  split
  · rfl
  · refine carry_bind (value_rename h _ value) fun r _ => ?_
    obtain ⟨got, d⟩ := r
    simp only [Renaming.withDraft, Field.rename, ne_eq, TypeRef.rename_inj, h.showType]
    split
    · rfl
    · rw [← Field.rename, target]
      cases f.isStatic
      · exact congrArg Except.ok (emit_rename d (.stfld _))
      · exact congrArg Except.ok (emit_rename d (.stsfld _))

theorem assignThrough_rename (d : Draft) (name : String) (span : Span) (slot : Nat) (type : TypeRef)
    (value : Expr) :
    (d.rename ρ).assignThrough site' name (ρ.span span) slot (type.rename ρ)
        (value.mapSpan ρ.span) =
      carry (·.rename ρ) (·.rename ρ) (d.assignThrough site name span slot type value) := by
  unfold assignThrough
  rw [show (d.rename ρ).emit (.ldloc slot) = (d.emit (.ldloc slot)).rename ρ from
    emit_rename d (.ldloc slot)]
  refine carry_bind (value_rename h _ value) fun r _ => ?_
  obtain ⟨got, d⟩ := r
  simp only [Renaming.withDraft, TypeRef.valueType_rename, ne_eq, TypeRef.rename_inj, h.showType,
    h.builtins, Builtins.elementKind]
  rw [TypeRef.rename, Builtins.numeric?_rename h.installed.builtins]
  split
  · rfl
  · exact congrArg Except.ok (emit_rename d (.stind _))

theorem assignLocal_rename (d : Draft) (name : String) (span : Span) (typeName : Option String)
    (value : Expr) :
    (d.rename ρ).assignLocal site' name (ρ.span span) typeName (value.mapSpan ρ.span) =
      carry (·.rename ρ) (·.rename ρ) (d.assignLocal site name span typeName value) := by
  have bound (declared : Option TypeRef) :
      (d.rename ρ).define site' name (ρ.span span) (value.mapSpan ρ.span)
          (declared.map (·.rename ρ)) =
        carry (·.rename ρ) (·.rename ρ) (d.define site name span value declared) := by
    refine carry_bind (value_rename h d value) fun r _ => ?_
    obtain ⟨got, d⟩ := r
    have type : (declared.map (·.rename ρ)).getD (got.rename ρ) = (declared.getD got).rename ρ := by
      cases declared <;> rfl
    simp only [Renaming.withDraft, type, ne_eq, TypeRef.rename_inj, h.showType]
    split
    · rfl
    · refine carry_bind (bind_rename h d name _ span) fun r _ => ?_
      exact congrArg Except.ok (emit_rename r.2 (.stloc r.1))
  cases typeName with
  | none => exact bound none
  | some text =>
    rw [assignLocal_some, assignLocal_some]
    refine carry_bind (f := Option.map (·.rename ρ)) ?_ fun declared _ => bound declared
    have resolved := d.check_rename (Scope.resolveType_rename (h.scope d.locals) text span)
    exact (congrArg (Except.map some) resolved).trans (carry_map _ fun _ => rfl)

theorem assign_rename (d : Draft) (name : String) (span : Span) (typeName : Option String)
    (value : Expr) :
    (d.rename ρ).assign site' name (ρ.span span) typeName (value.mapSpan ρ.span) =
      carry (·.rename ρ) (·.rename ρ) (d.assign site name span typeName value) := by
  have here := assignLocal_rename h d name span typeName value
  unfold assign
  rw [show (d.rename ρ).locals = d.locals.rename ρ from rfl, Locals.find?_rename,
    Scope.field?_rename (h.scope d.locals)]
  cases typeName with
  | some text => exact here
  | none =>
    cases d.locals.find? name with
    | none =>
      dsimp only [Option.map_none]
      cases (site.scope d.locals).field? name with
      | none => exact here
      | some f => exact assignField_rename h d f span value
    | some l =>
      obtain ⟨slot, type⟩ := l
      dsimp only [Option.map_some]
      rw [TypeRef.isAddress_rename]
      split
      · exact assignThrough_rename h d name span slot type value
      · exact here

theorem exprStmt_rename (d : Draft) (e : Expr) :
    (d.rename ρ).exprStmt site' (e.mapSpan ρ.span) =
      carry (·.rename ρ) (·.rename ρ) (d.exprStmt site e) := by
  have noted : (d.rename ρ).noted site' (e.mapSpan ρ.span) = (d.noted site e).rename ρ := by
    rw [Draft.noted, h.options, Expr.isCall_mapSpan, Expr.span_mapSpan, warn_rename,
      ← apply_ite (rename ρ)]
    rfl
  rw [exprStmt_eq, exprStmt_eq, noted, h.options, Expr.isCall_mapSpan]
  split
  · rfl
  · refine carry_bind (expr_rename h _ e) fun r _ => ?_
    obtain ⟨type, d⟩ := r
    simp only [Renaming.withDraft, h.builtins, TypeRef.rename,
      Builtins.cls_eq_void h.installed.builtins]
    split
    · rfl
    · exact congrArg Except.ok (emit_rename d .pop)

theorem returnStmt_rename (d : Draft) (value : Option Expr) (span : Span) :
    (d.rename ρ).returnStmt site' (value.map (·.mapSpan ρ.span)) (ρ.span span) =
      carry (·.rename ρ) (·.rename ρ) (d.returnStmt site value span) := by
  unfold returnStmt
  rw [h.returnsVoid, h.sig, h.builtins]
  dsimp only [Signature.returnType_rename, Signature.name_rename]
  rw [h.showType]
  cases value with
  | none =>
    dsimp only [Option.map_none]
    split
    · exact congrArg Except.ok (emit_rename d (.ret false))
    · rfl
  | some e =>
    refine carry_bind (expr_rename h d e) fun r _ => ?_
    obtain ⟨got, d⟩ := r
    have void : ((got.rename ρ).cls != site.builtins.void) = (got.cls != site.builtins.void) := by
      rw [bne, bne, Bool.beq_eq_decide_eq, Bool.beq_eq_decide_eq]
      exact congrArg not (decide_eq_decide.2 (Builtins.cls_eq_void h.installed.builtins _))
    simp only [Renaming.withDraft, ne_eq, TypeRef.rename_inj, h.showType, Expr.span_mapSpan, void]
    split
    · rfl
    · exact congrArg Except.ok (emit_rename d (.ret _))

theorem admit?_rename (d : Draft) (span : Span) :
    (d.rename ρ).admit? site' (ρ.span span) =
      ((d.admit? site span).1.rename ρ, (d.admit? site span).2) := by
  unfold admit?
  rw [isDead_rename, show (d.rename ρ).current = d.current from rfl, segment_rename, h.options]
  simp only [OpenSegment.isTerminated_rename, enterUnreachable_rename, warn_rename]
  rw [show ((d.segment d.current).rename ρ).isMuted = (d.segment d.current).isMuted from rfl,
    ← apply_ite (rename ρ), ← apply_ite (rename ρ), enterUnreachable_rename]
  split
  · rfl
  split
  · rfl
  split <;> rfl

theorem condition_rename (d : Draft) (a : Arm) :
    (d.rename ρ).condition site' (a.mapSpan ρ.span) =
      carry (·.rename ρ) (ρ.withDraft id) (d.condition site a) := by
  obtain ⟨e, body, span⟩ := a
  unfold condition
  rw [spawnFresh_rename]
  refine carry_bind (value_rename h _ e) fun r _ => ?_
  exact congrArg (fun d => Except.ok (_, d)) (branch_rename r.2 (fun _ => rfl) _)

theorem conditions_rename (d : Draft) (as : List Arm) :
    (d.rename ρ).conditions site' (Arm.mapSpanEach ρ.span as) =
      carry (·.rename ρ) (ρ.withDraft id) (d.conditions site as) := by
  induction as generalizing d with
  | nil => rfl
  | cons a as ih =>
    refine carry_bind (condition_rename h d a) fun r _ => ?_
    exact carry_bind (ih r.2) fun _ _ => rfl

omit h

theorem join_rename (d : Draft) (after : Nat) :
    (d.rename ρ).join after = (d.join after).rename ρ := by
  rw [join, join, fallsThrough_rename, branch_rename d (fun _ => rfl), apply_ite (rename ρ)]

mutual

theorem stmt_rename (h : site.RenamesTo ρ site') (d : Draft) : ∀ s : Stmt,
    (d.rename ρ).stmt site' (s.mapSpan ρ.span) =
      carry (·.rename ρ) (·.rename ρ) (d.stmt site s)
  | .expr e => exprStmt_rename h d e
  | .declare name nameSpan typeName _ => declare_rename h d name nameSpan typeName
  | .assign name nameSpan typeName value _ => assign_rename h d name nameSpan typeName value
  | .ret value span => returnStmt_rename h d value span
  | .loop condition (.mk body _) _ => by
    simp only [Stmt.mapSpan, Block.mapSpan, stmt, spawnFresh_rename, Renaming.withDraft, id]
    have entered (d : Draft) (cond : Nat) : ((d.rename ρ).branch .br cond).switchTo cond =
        ((d.branch .br cond).switchTo cond).rename ρ :=
      congrArg (·.switchTo cond) (branch_rename d (fun _ => rfl) cond)
    have leave (d : Draft) (after : Nat) : (d.rename ρ).branch .brfalse after =
        (d.branch .brfalse after).rename ρ := branch_rename d (fun _ => rfl) after
    rw [entered]
    refine carry_bind (value_rename h _ condition) fun r _ => ?_
    simp only [Renaming.withDraft, leave]
    refine carry_bind (stmts_rename h _ body) fun d _ => ?_
    rw [join_rename]
    rfl
  | .cond first rest none _ => by
    simp only [Stmt.mapSpan, Block.mapSpanElse, stmt, spawnFresh_rename, Renaming.withDraft, id]
    refine carry_bind (condition_rename h _ first) fun r _ => ?_
    refine carry_bind (conditions_rename h r.2 rest) fun rs _ => ?_
    simp only [Renaming.withDraft, ok_bind, join_rename, id]
    refine carry_bind (arm_rename h _ _ _ first) fun d _ => ?_
    exact carry_bind (arms_rename h d _ _ rest) fun _ _ => rfl
  | .cond first rest (some (.mk body _)) _ => by
    simp only [Stmt.mapSpan, Block.mapSpanElse, Block.mapSpan, stmt, spawnFresh_rename,
      Renaming.withDraft, id]
    refine carry_bind (condition_rename h _ first) fun r _ => ?_
    refine carry_bind (conditions_rename h r.2 rest) fun rs _ => ?_
    refine carry_bind (stmts_rename h rs.2 body) fun d _ => ?_
    simp only [Renaming.withDraft, join_rename, id]
    refine carry_bind (arm_rename h _ _ _ first) fun d _ => ?_
    exact carry_bind (arms_rename h d _ _ rest) fun _ _ => rfl

theorem arm_rename (h : site.RenamesTo ρ site') (d : Draft) (after segment : Nat) : ∀ a : Arm,
    (d.rename ρ).arm site' after segment (a.mapSpan ρ.span) =
      carry (·.rename ρ) (·.rename ρ) (d.arm site after segment a)
  | .mk _ (.mk body _) _ => by
    refine carry_bind (stmts_rename h (d.switchTo segment) body) fun d _ => ?_
    exact congrArg Except.ok (join_rename d after)

theorem arms_rename (h : site.RenamesTo ρ site') (d : Draft) (after : Nat) :
    ∀ (segments : List Nat) (as : List Arm),
    (d.rename ρ).arms site' after segments (Arm.mapSpanEach ρ.span as) =
      carry (·.rename ρ) (·.rename ρ) (d.arms site after segments as)
  | segment :: segments, a :: rest => by
    simp only [Arm.mapSpanEach, arms]
    exact carry_bind (arm_rename h d after segment a) fun d _ =>
      arms_rename h d after segments rest
  | [], _ => by simp only [arms, carry]
  | _ :: _, [] => by simp only [Arm.mapSpanEach, arms, carry]

theorem stmts_rename (h : site.RenamesTo ρ site') (d : Draft) : ∀ ss : List Stmt,
    (d.rename ρ).stmts site' (Stmt.mapSpanEach ρ.span ss) =
      carry (·.rename ρ) (·.rename ρ) (d.stmts site ss)
  | [] => by simp only [Stmt.mapSpanEach, stmts, carry]
  | s :: rest => by
    simp only [Stmt.mapSpanEach, stmts, Stmt.span_mapSpan, admit?_rename h]
    split
    · exact carry_bind (stmt_rename h _ s) fun d _ => stmts_rename h d rest
    · rfl

end

end ClassAsm.Draft
