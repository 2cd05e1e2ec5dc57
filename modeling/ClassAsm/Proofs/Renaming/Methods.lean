import ClassAsm.Proofs.Renaming.Statements

/-! Whole methods under a renaming. The renamed source compiles to the renamed method, or fails in
the renamed way. So what a method compiles to does not depend on the methods before it, but for the
numbers of its labels. -/

namespace ClassAsm

variable (ρ : Renaming)

def MethodSource.rename : MethodSource → MethodSource
  | .declared decl => .declared (decl.mapSpan ρ.span)
  | .initializer isStatic => .initializer isStatic

/-- The result of compiling a method. -/
def Renaming.compiled (r : Method × Nat × Array Warning) : Method × Nat × Array Warning :=
  (r.1.rename ρ, r.2.1 + ρ.labels, ρ.earlier ++ r.2.2.map (·.rename ρ))

variable {ρ}

namespace Draft

theorem isUnused_rename (i : Nat) (s : OpenSegment) : isUnused i (s.rename ρ) = isUnused i s := by
  have empty : (s.code.map (·.rename ρ)).isEmpty = s.code.isEmpty := by
    simp [Array.isEmpty]
  simp only [isUnused, OpenSegment.rename, empty]

variable {site site' : Site} (h : site.RenamesTo ρ site')

include h

theorem params_rename (d : Draft) (index : Nat) (ps : List (Param × TypeRef)) :
    (d.rename ρ).params site' index (ps.map fun (p, t) => (p.mapSpan ρ.span, t.rename ρ)) =
      carry (·.rename ρ) (·.rename ρ) (d.params site index ps) := by
  induction ps generalizing d index with
  | nil => rfl
  | cons p ps ih =>
    obtain ⟨p, type⟩ := p
    have slot : argumentSlot site' index = argumentSlot site index := by
      rw [argumentSlot, argumentSlot, h.sig]
      rfl
    have straight (i j : Nat) : Straight [.ldarg i, .stloc j] :=
      (Straight.one (i := .ldarg i) rfl).append (Straight.one (i := .stloc j) rfl)
    have renamed : (d.rename ρ).locals = d.locals.rename ρ := rfl
    rw [List.map_cons]
    by_cases new : d.locals.find? p.name = none
    · have new' : (d.rename ρ).locals.find? (p.mapSpan ρ.span).name = none :=
        Locals.find?_rename_eq_none new
      have copied : ((d.rename ρ).addLocal (p.mapSpan ρ.span).name (type.rename ρ)).emitAll
          [.ldarg (argumentSlot site' index), .stloc (d.rename ρ).locals.size] =
          ((d.addLocal p.name type).emitAll
            [.ldarg (argumentSlot site index), .stloc d.locals.size]).rename ρ := by
        rw [slot, renamed, Locals.size_rename, ← emitAll_rename _ (straight _ _), ← addLocal_rename]
        rfl
      rw [params_cons_of_new new, params_cons_of_new new', copied, renamed, Locals.isFull_rename]
      split
      · rfl
      · exact ih _ _
    · have known : (d.rename ρ).locals.find? (p.mapSpan ρ.span).name ≠ none := by
        rw [renamed, Locals.find?_rename]
        exact Option.map_eq_none_iff.not.2 new
      rw [params_cons_of_known new, params_cons_of_known known]
      rfl

theorem defaults_rename (d : Draft) (isStatic : Bool) (fs : List Field) :
    (d.rename ρ).defaults site' isStatic (fs.map (·.rename ρ)) =
      carry (·.rename ρ) (·.rename ρ) (d.defaults site isStatic fs) := by
  induction fs generalizing d with
  | nil => rfl
  | cons f fs ih =>
    have target : site'.registry.fieldTarget site'.owner (f.rename ρ) =
        site.registry.fieldTarget site.owner f := by rw [h.owner, h.registry.fieldTarget]
    have begun : (d.rename ρ).emit (.ldarg 0) = (d.emit (.ldarg 0)).rename ρ :=
      emit_rename d (.ldarg 0)
    have stored (d : Draft) (target : String) :
        (d.rename ρ).emit (if isStatic then .stsfld target else .stfld target) =
          (d.emit (if isStatic then .stsfld target else .stfld target)).rename ρ := by
      cases isStatic
      · exact emit_rename d (.stfld target)
      · exact emit_rename d (.stsfld target)
    rw [List.map_cons, defaults, defaults, target, begun, ← apply_ite (rename ρ)]
    rw [show (f.rename ρ).default = f.default.map (·.mapSpan ρ.span) from rfl,
      show (f.rename ρ).isStatic = f.isStatic from rfl]
    cases f.default with
    | none => exact ih d
    | some value =>
      dsimp only [Option.map_some]
      split
      · exact ih d
      · refine carry_bind (value_rename h _ value) fun r _ => ?_
        obtain ⟨got, d⟩ := r
        have type : (f.rename ρ).type = f.type.rename ρ := rfl
        simp only [Renaming.withDraft, ne_eq, stored, type, TypeRef.rename_inj, h.showType,
          Expr.span_mapSpan]
        split
        · rfl
        · exact ih _

theorem closeSegment_rename (span : Span) (d : Draft) (i : Nat) :
    closeSegment site' (ρ.span span) (d.rename ρ) i =
      carry (·.rename ρ) (·.rename ρ) (closeSegment site span d i) := by
  have returned (d : Draft) : (d.rename ρ).emit (.ret false) = (d.emit (.ret false)).rename ρ :=
    emit_rename d (.ret false)
  have looped (d : Draft) : (d.rename ρ).branch .br i = (d.branch .br i).rename ρ :=
    branch_rename d (fun _ => rfl) i
  have switched : (d.rename ρ).switchTo i = (d.switchTo i).rename ρ := rfl
  unfold closeSegment
  simp only [segment_rename, OpenSegment.isTerminated_rename, isUnused_rename, h.returnsVoid,
    switched, returned, looped, h.sig, Signature.returnType_rename, Signature.name_rename, h.showType]
  rw [show ((d.segment i).rename ρ).isLive = (d.segment i).isLive from rfl]
  split
  · rfl
  split
  · rfl
  split <;> rfl

theorem finish_rename (d : Draft) (span : Span) :
    (d.rename ρ).finish site' (ρ.span span) =
      carry (·.rename ρ) (ρ.withDraft (List.map (·.rename ρ))) (d.finish site span) := by
  have closed : (List.range (d.rename ρ).segments.size).foldlM (closeSegment site' (ρ.span span))
      (d.rename ρ) = carry (·.rename ρ) (·.rename ρ)
        ((List.range d.segments.size).foldlM (closeSegment site span) d) := by
    have all := carry_foldlM (f := id) (l := List.range d.segments.size) (fun d i _ =>
      closeSegment_rename h span d i) d
    rw [List.map_id] at all
    rw [show (d.rename ρ).segments.size = d.segments.size from Array.size_map ..]
    exact all
  refine carry_bind closed fun d _ => ?_
  have kept : (d.rename ρ).segments.toList.zipIdx = d.segments.toList.zipIdx.map
      fun x => (x.1.rename ρ, x.2) := by
    simp only [rename, Array.toList_map, List.zipIdx_map]
    rfl
  simp only [kept, List.filter_map, Function.comp_def, isUnused_rename, List.map_map,
    OpenSegment.close_rename, carry, Renaming.withDraft]

theorem source_rename (d : Draft) (source : MethodSource) :
    (d.rename ρ).source site' (source.rename ρ) =
      carry (·.rename ρ) (ρ.withDraft (List.map (·.rename ρ))) (d.source site source) := by
  cases source with
  | declared decl =>
    have zipped : (decl.mapSpan ρ.span).params.zip (site'.sig.params.map (·.2)) =
        (decl.params.zip (site.sig.params.map (·.2))).map
          fun (p, t) => (p.mapSpan ρ.span, t.rename ρ) := by
      have types : (ρ.types site.sig.params).map (·.2) =
          (site.sig.params.map (·.2)).map (·.rename ρ) := by
        simp only [Renaming.types, List.map_map, Function.comp_def]
      rw [h.sig, Signature.params_rename, types, MethodDecl.mapSpan, List.zip_map]
      rfl
    have body : (decl.mapSpan ρ.span).body.stmts = Stmt.mapSpanEach ρ.span decl.body.stmts := by
      rw [MethodDecl.mapSpan]
      cases decl.body
      rfl
    simp only [MethodSource.rename, Draft.source, zipped, body]
    refine carry_bind (params_rename h d 0 _) fun d _ => ?_
    refine carry_bind (stmts_rename h d _) fun d _ => ?_
    exact finish_rename h d decl.nameSpan
  | initializer isStatic =>
    have fields : (site'.registry.class? site'.owner).elim [] (·.fields) =
        ((site.registry.class? site.owner).elim [] (·.fields)).map (·.rename ρ) := by
      rw [h.owner, h.registry.elim site.owner [] (·.fields) fun _ => rfl]
      cases site.registry.class? site.owner with
      | none => rfl
      | some c => simp
    have based : ((d.rename ρ).emit (.ldarg 0)).emit .callBaseCtor =
        ((d.emit (.ldarg 0)).emit .callBaseCtor).rename ρ :=
      (congrArg (·.emit .callBaseCtor) (emit_rename d (.ldarg 0))).trans
        (emit_rename _ .callBaseCtor)
    have finished (d : Draft) := finish_rename h d ⟨0, 0⟩
    rw [ρ.span_origin] at finished
    simp only [MethodSource.rename, Draft.source, fields, based, ← apply_ite (rename ρ)]
    exact carry_bind (defaults_rename h _ isStatic _) fun d _ => finished d

end Draft

/-- The method compiles to the same, whatever the numbers of classes and of the next label, the
spans, and the warnings so far. -/
theorem Method.compile_rename (m : Method) {site site' : Site} (h : site.RenamesTo ρ site')
    (source : MethodSource) (labels : Nat) (warnings : Array Warning) :
    (m.rename ρ).compile site' (source.rename ρ) (labels + ρ.labels)
        (ρ.earlier ++ warnings.map (·.rename ρ)) =
      carry (·.rename ρ) ρ.compiled (m.compile site source labels warnings) := by
  rw [compile, compile, ← Draft.start_rename]
  refine carry_bind (Draft.source_rename h _ source) fun r _ => ?_
  have entry : (source.rename ρ).isEntryPoint = source.isEntryPoint := by cases source <;> rfl
  have locals (l : Locals) : Table.toList (l.rename ρ) = ρ.types l.toList := l.toList_rename
  simp only [entry, Renaming.withDraft, Draft.rename, locals]
  rfl

/-! Nothing is renamed. -/

theorem Segment.rename_still (s : Segment) : s.rename .still = s := by
  have kept (i : Instruction) : i.relabel Renaming.still.label = i := by cases i <;> rfl
  rw [rename, relabel, funext kept, List.map_id']
  rfl

theorem Method.rename_still (m : Method) : m.rename .still = m := by
  have body : m.body.rename .still = m.body := by
    cases m.body with
    | segments ss => rw [MethodBody.rename, funext Segment.rename_still, List.map_id']
    | pending | inline => rfl
  rw [rename, body, Signature.rename_eq_self rfl, Renaming.types_eq_self rfl]
  rfl

theorem MethodSource.rename_still (s : MethodSource) : s.rename .still = s := by
  cases s with
  | declared decl => exact congrArg MethodSource.declared decl.mapSpan_id
  | initializer => rfl

theorem Renaming.warnings_still (ws : Array Warning) :
    Renaming.still.earlier ++ ws.map (·.rename .still) = ws := by
  have kept (w : Warning) : w.rename .still = w := by
    rw [Warning.rename, show Renaming.still.span = id from rfl, Option.map_id]
    rfl
  rw [funext kept, Array.map_id']
  exact Array.empty_append

theorem Stop.rename_still (s : Stop) : s.rename .still = s := by
  have failure : s.failure.rename .still = s.failure := by
    rw [Failure.rename, show Renaming.still.span = id from rfl, Option.map_id]
    rfl
  rw [rename, failure, Renaming.warnings_still]

/-- Compiling a method leaves its declaration. -/
theorem Method.declaration_compile {m c : Method} {site : Site} {source : MethodSource}
    {labels labels' : Nat} {warnings warnings' : Array Warning} (pending : m.body = .pending)
    (h : m.compile site source labels warnings = .ok (c, labels', warnings')) :
    c.declaration = m.declaration := by
  obtain ⟨_, _, -, rfl, -⟩ := compile_eq_ok.1 h
  rw [declaration, declaration, pending]
  rfl

/-- A site may stand in any registry that declares the same. -/
theorem Site.renamesTo_still {site : Site} {r : Registry}
    (installed : site.registry.Installed site.builtins)
    (same : r.declarations = site.registry.declarations) :
    site.RenamesTo .still { site with registry := r } where
  installed
  registry := .of_declarations rfl rfl same
  builtins := rfl
  owner := rfl
  resolves name := by
    have resolves : r.declarations.resolve? name site.nspace =
        site.registry.declarations.resolve? name site.nspace := by rw [same]
    exact resolves.trans (Option.map_id' ..).symm
  sig := (Signature.rename_eq_self rfl site.sig).symm
  options := rfl

/-- Methods compile alike in registries that declare the same: it makes no difference which of the
other methods are compiled already. -/
theorem Method.compile_of_declarations (m : Method) {site : Site} {r : Registry}
    (installed : site.registry.Installed site.builtins)
    (same : r.declarations = site.registry.declarations) (source : MethodSource) (labels : Nat)
    (warnings : Array Warning) :
    m.compile { site with registry := r } source labels warnings =
      m.compile site source labels warnings := by
  have alike := m.compile_rename (Site.renamesTo_still installed same) source labels warnings
  rw [m.rename_still, source.rename_still, Renaming.warnings_still] at alike
  refine alike.trans ?_
  cases m.compile site source labels warnings with
  | error s => exact congrArg Except.error s.rename_still
  | ok r => rw [carry, Renaming.compiled, r.1.rename_still, Renaming.warnings_still]; rfl

/-! Drafts that are made alike. -/

namespace Draft

theorem rename_still (d : Draft) : d.rename .still = d := by
  have segment (s : OpenSegment) : s.rename .still = s := by
    have kept (i : Instruction) : i.rename .still = i := by cases i <;> rfl
    rw [OpenSegment.rename, funext kept, Array.map_id']
    rfl
  have locals : d.locals.rename .still = d.locals :=
    Table.ext ((Table.toList_map ..).trans (List.map_id' _))
  rw [rename, funext segment, Array.map_id', locals, Renaming.warnings_still]
  rfl

theorem carry_still (x : Except Stop Draft) :
    carry (·.rename .still) (·.rename .still) x = x := by
  cases x with
  | error s => exact congrArg Except.error s.rename_still
  | ok d => exact congrArg Except.ok d.rename_still

theorem carry_withDraft_still {α : Type} (x : Except Stop (α × Draft)) :
    carry (·.rename .still) (Renaming.still.withDraft id) x = x := by
  cases x with
  | error s => exact congrArg Except.error s.rename_still
  | ok r => exact congrArg (fun d => Except.ok (r.1, d)) r.2.rename_still

variable {site site' : Site} (h : site.RenamesTo .still site') (d : Draft)

include h

theorem admit?_still (span : Span) : d.admit? site' span = d.admit? site span := by
  have alike := admit?_rename h d span
  rwa [rename_still, rename_still] at alike

theorem stmt_still (s : Stmt) : d.stmt site' s = d.stmt site s := by
  have alike := stmt_rename h d s
  rwa [rename_still, carry_still, show Renaming.still.span = id from rfl, s.mapSpan_id] at alike

theorem stmts_still (ss : List Stmt) : d.stmts site' ss = d.stmts site ss := by
  have alike := stmts_rename h d ss
  rwa [rename_still, carry_still, show Renaming.still.span = id from rfl,
    Stmt.mapSpanEach_id] at alike

theorem loopStart_still (c : Expr) : d.loopStart site' c = d.loopStart site c := by
  have value (d : Draft) : d.value site' c = d.value site c := by
    have alike := value_rename h d c
    rwa [rename_still, show Renaming.still.span = id from rfl, c.mapSpan_id,
      show (TypeRef.rename .still) = id from rfl, carry_withDraft_still] at alike
  simp only [loopStart, value]

theorem condStart_still (as : List Arm) : d.condStart site' as = d.condStart site as := by
  have conditions (d : Draft) : d.conditions site' as = d.conditions site as := by
    have alike := conditions_rename h d as
    rwa [rename_still, show Renaming.still.span = id from rfl, Arm.mapSpanEach_id,
      carry_withDraft_still] at alike
  simp only [condStart, conditions]

end Draft
end ClassAsm
