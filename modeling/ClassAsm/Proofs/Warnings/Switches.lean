import ClassAsm.Proofs.Program.Jobs
import ClassAsm.Proofs.Renaming.Members
import ClassAsm.Proofs.Warnings.Drafts

/-! Switches that mute warnings, for whole programs. Members are declared without a look at them, and
bodies are compiled to the same code. So two compilations that trim alike end alike, and the warnings
of one are those of the one that mutes nothing, without the muted ones. -/

namespace ClassAsm

/-- A result with the warnings that are left. -/
def Options.shownWith {α : Type} (o : Options) (s : α × Array Warning) : α × Array Warning :=
  (s.1, o.shown s.2)

variable {o : Options}

namespace Draft

variable {site : Site}

theorem params_shown (d : Draft) (index : Nat) (ps : List (Param × TypeRef)) :
    (d.shown o).params (site.under o) index ps =
      carry (Stop.shown o) (shown o) (d.params site index ps) := by
  induction ps generalizing d index with
  | nil => rfl
  | cons p ps ih =>
    obtain ⟨p, type⟩ := p
    by_cases new : d.locals.find? p.name = none
    · rw [params_cons_of_new new, params_cons_of_new (d := d.shown o) new, apply_ite (carry _ _)]
      exact ite_congr rfl (fun _ => rfl) fun _ => ih ((d.addLocal p.name type new).emitAll
        [.ldarg (argumentSlot site index), .stloc d.locals.size]) (index + 1)
    · rw [params_cons_of_known new, params_cons_of_known (d := d.shown o) new]
      rfl

theorem defaults_shown (d : Draft) (isStatic : Bool) (fs : List Field) :
    (d.shown o).defaults (site.under o) isStatic fs =
      carry (Stop.shown o) (shown o) (d.defaults site isStatic fs) := by
  induction fs generalizing d with
  | nil => rfl
  | cons f fs ih =>
    have begun : (if isStatic then d.shown o else (d.shown o).emit (.ldarg 0)) =
        (if isStatic then d else d.emit (.ldarg 0)).shown o := by
      rw [apply_ite (shown o)]
      rfl
    rw [defaults, defaults, begun]
    cases f.default with
    | none => exact ih d
    | some value =>
      dsimp only
      split
      · exact ih d
      · refine carry_bind (value_shown _ value) fun r _ => ?_
        dsimp only [Prod.map, id]
        split
        · rfl
        · exact ih (r.2.emit _)

theorem closeSegment_shown (span : Span) (d : Draft) (i : Nat) :
    closeSegment (site.under o) span (d.shown o) i =
      carry (Stop.shown o) (shown o) (closeSegment site span d i) := by
  unfold closeSegment
  rw [show (d.shown o).segment i = d.segment i from rfl,
    show (site.under o).returnsVoid = site.returnsVoid from rfl]
  dsimp only
  split
  · rfl
  split
  · rfl
  split <;> rfl

theorem finish_shown (d : Draft) (span : Span) : (d.shown o).finish (site.under o) span =
    carry (Stop.shown o) (Prod.map id (shown o)) (d.finish site span) := by
  have closed := carry_foldlM (f := id) (l := List.range d.segments.size)
    (fun d i _ => @closeSegment_shown o site span d i) d
  rw [List.map_id] at closed
  exact carry_bind closed fun _ _ => rfl

theorem source_shown (h : site.options = o.unmuted) (d : Draft) (source : MethodSource) :
    (d.shown o).source (site.under o) source =
      carry (Stop.shown o) (Prod.map id (shown o)) (d.source site source) := by
  cases source with
  | declared decl =>
    refine carry_bind (params_shown d 0 _) fun d _ => ?_
    exact carry_bind (stmts_shown h d decl.body.stmts) fun d _ => finish_shown d decl.nameSpan
  | initializer isStatic =>
    have begun : (if isStatic then d.shown o else ((d.shown o).emit (.ldarg 0)).emit .callBaseCtor) =
        (if isStatic then d else (d.emit (.ldarg 0)).emit .callBaseCtor).shown o := by
      rw [apply_ite (shown o)]
      rfl
    simp only [Draft.source, begun]
    exact carry_bind (defaults_shown _ isStatic _) fun d _ => finish_shown d ⟨0, 0⟩

end Draft

theorem Method.compile_shown (m : Method) {site : Site} (h : site.options = o.unmuted)
    (source : MethodSource) (labels : Nat) (warnings : Array Warning) :
    m.compile (site.under o) source labels (o.shown warnings) =
      carry (Stop.shown o) (Prod.map id o.shownWith)
        (m.compile site source labels warnings) :=
  carry_bind (Draft.source_shown h (Draft.start labels warnings) source) fun _ _ => rfl

/-! Declarations. Their warnings are always shown. -/

namespace Outline

theorem addMethod_shown (r : Registry) (ns : Nat) (s : Class × Array Warning) (m : MethodDecl) :
    addMethod r ns (o.shownWith s) m =
      carry (Stop.shown o) o.shownWith (addMethod r ns s m) := by
  obtain ⟨c, warnings⟩ := s
  have signed (x : Except Failure Signature) : x.mapError (Stop.mk · (o.shown warnings)) =
      carry (Stop.shown o) (fun sig => sig) (x.mapError (Stop.mk · warnings)) := by
    cases x <;> rfl
  have added (sig : Signature) (s : Class × Array Warning) :
      withMethod m sig (o.shownWith s) =
        carry (Stop.shown o) o.shownWith (withMethod m sig s) := by
    unfold withMethod
    dsimp only [Options.shownWith]
    split <;> rfl
  have warned (w : Warning) (h : o.shows w = true) :
      (o.shown warnings).push w = o.shown (warnings.push w) := by
    simp only [Options.shown, Array.filter_push, h, if_true]
  refine carry_bind (signed _) fun sig _ => ?_
  cases operatorKey? m with
  | none => exact added sig (c, warnings)
  | some key =>
    by_cases hk : Operation.keys.contains key = true
    · simp only [hk, if_true]
      exact added sig (c.registerOperator key m.name, warnings)
    · simp only [hk, warned ⟨.invalidOperatorName m.name, some m.nameSpan⟩ rfl]
      exact added sig (c, warnings.push ⟨.invalidOperatorName m.name, some m.nameSpan⟩)

theorem ofPlaced_shown (r : Registry) (void : ClassId) (warnings : Array Warning) (p : Placed) :
    ofPlaced r void (o.shown warnings) p =
      carry (Stop.shown o) o.shownWith (ofPlaced r void warnings p) := by
  have stopped (x : Except Failure Class) : x.mapError (Stop.mk · (o.shown warnings)) =
      carry (Stop.shown o) (fun c => c) (x.mapError (Stop.mk · warnings)) := by
    cases x <;> rfl
  refine carry_bind (stopped _) fun c _ => ?_
  have methods := carry_foldlM (f := fun m => m) (l := p.decl.methods)
    (fun s m _ => addMethod_shown (o := o) r p.nspace s m) (c, warnings)
  rw [List.map_id'] at methods
  exact carry_bind methods fun _ _ => rfl

end Outline

namespace Program

theorem outlines_shown (r : Registry) (void : ClassId) (placed : List Placed) :
    outlines r void placed =
      carry (Stop.shown o) o.shownWith (outlines r void placed) := by
  have one (s : List Outline × Array Warning) (p : Placed) : outlinesStep r void (o.shownWith s) p =
      carry (Stop.shown o) o.shownWith (outlinesStep r void s p) :=
    carry_bind (Outline.ofPlaced_shown r void s.2 p) fun _ _ => rfl
  have all := carry_foldlM (f := id) (l := placed) (fun s p _ => one s p) ([], #[])
  rw [List.map_id] at all
  rw [outlines_eq]
  exact carry_bind all fun _ _ => rfl

/-- Declaring gives no warning that can be muted. -/
theorem declare_shown (items : List Item) : declare items =
    carry (Stop.shown o) (fun d => { d with warnings := o.shown d.warnings }) (declare items) := by
  rw [declare_eq]
  refine carry_bind (f := id) ?_ fun p _ => ?_
  · cases items.foldlM Placement.add { registry := Registry.base } <;> rfl
  · exact carry_bind (outlines_shown p.registry _ _) fun _ _ => rfl

def Progress.shown (o : Options) (p : Progress) : Progress :=
  { p with warnings := o.shown p.warnings }

theorem compileClass_shown (d : Declared) (p : Progress) (c : Outline) :
    d.compileClass o (p.shown o) c =
      carry (Stop.shown o) (Progress.shown o) (d.compileClass o.unmuted p c) := by
  rw [Declared.compileClass, Declared.compileClass]
  have methods := carry_foldlM (f := id) (l := c.cls.methods.zip c.sources)
    (g := Prod.map id o.shownWith) (F := Stop.shown o)
    (s := methodStep (d.siteIn o.unmuted c)) (t := methodStep (d.siteIn o c))
    (fun s m _ => carry_bind (@Method.compile_shown o m.1 (d.siteIn o.unmuted c m.1) rfl m.2 s.2.1
      s.2.2) fun _ _ => rfl)
    ([], p.labels, p.warnings)
  rw [List.map_id] at methods
  exact carry_bind methods fun _ _ => rfl

theorem build_shown (o : Options) (items : List Item) : build o items =
    carry (Stop.shown o) o.shownWith (build o.unmuted items) := by
  rw [build_eq, build_eq]
  refine carry_bind (declare_shown items) fun d _ => ?_
  have classes := carry_foldlM (f := id) (l := d.outlines)
    (fun p c _ => compileClass_shown (o := o) d p c)
    ⟨⟨d.registry, false⟩, 0, d.warnings⟩
  rw [List.map_id] at classes
  refine carry_bind classes fun p _ => ?_
  have last (hasMain : Bool) : mainWarning o hasMain = o.shown (mainWarning o.unmuted hasMain) := by
    have shows : o.shows ⟨.mainNotDefined, none⟩ = (o.requireMain && !o.muteMainNotDefined) := rfl
    cases hasMain <;> cases hm : o.requireMain && !o.muteMainNotDefined <;>
      simp_all [mainWarning, Options.shown, Options.unmuted]
  have reported : o.shown p.warnings ++ mainWarning o p.program.hasMain =
      o.shown (p.warnings ++ mainWarning o.unmuted p.program.hasMain) := by
    rw [last]
    exact (Array.filter_append Array.size_append).symm
  exact congrArg (fun w => Except.ok (p.program, w)) reported

theorem ofItems_shown (o : Options) (items : List Item) : ofItems o items =
    ⟨(ofItems o.unmuted items).warnings.filter o.shows, (ofItems o.unmuted items).result⟩ := by
  rw [ofItems, build_shown o items]
  unfold ofItems
  cases build o.unmuted items with
  | ok built => exact congrArg (Outcome.mk · _) Array.toList_filter
  | error stop => exact congrArg (Outcome.mk · _) Array.toList_filter

end Program

/-- All warnings are reported. -/
structure Options.MutesNothing (o : Options) : Prop where
  mainNotDefined : o.muteMainNotDefined = false
  uselessCode : o.muteUselessCode = false
  unreachableCode : o.muteUnreachableCode = false
  requireMain : o.requireMain = true

theorem Options.MutesNothing.shows_eq (h : o.MutesNothing) (w : Warning) : o.shows w = true := by
  unfold shows
  split
  · rw [h.requireMain, h.mainNotDefined]
    rfl
  · rw [h.uselessCode]
    rfl
  · rw [h.unreachableCode]
    rfl
  · rfl
  · rfl

namespace Program

/-- Warning switches never change code: under switches that trim alike the items build the same
program or fail in the same way, and where one of them mutes nothing, the warnings under the other
are those that it shows, in the same order, also if the compilation fails. -/
theorem switches_never_change_code {o o' : Options}
    (unreachable : o.trimUnreachableCode = o'.trimUnreachableCode)
    (useless : o.trimUselessCode = o'.trimUselessCode) (items : List Item) :
    (ofItems o items).result = (ofItems o' items).result ∧
      (o'.MutesNothing →
        (ofItems o items).warnings = (ofItems o' items).warnings.filter o.shows) := by
  have same : o.unmuted = o'.unmuted := by
    rw [Options.unmuted, Options.unmuted, unreachable, useless]
  rw [ofItems_shown o, ofItems_shown o', same]
  refine ⟨rfl, fun loud => ?_⟩
  have all : (ofItems o'.unmuted items).warnings.filter o'.shows = (ofItems o'.unmuted items).warnings :=
    List.filter_eq_self.2 fun w _ => loud.shows_eq w
  exact congrArg (List.filter o.shows) all.symm

/-- A class that gives warnings before its last method lacks a value. -/
def chatter : List Item :=
  let s : Span := ⟨0, 0⟩
  let num (n : Nat) : Expr := .int n s
  let method (n : String) (kind : MethodKind) (body : List Stmt) : MethodDecl :=
    ⟨n, s, "i32", s, [], .mk body s, true, kind, s⟩
  [.cls ⟨"Chatter", s, true, [],
    [method "ask" .operator [.ret (some (num 1)) s],
     method "tell" .static [.expr (num 1), .ret (some (num 2)) s, .expr (num 3)],
     method "wait" .static [.ret none s]], s⟩]

/-- Under some of the switches. -/
def hush : Options := { muteUselessCode := true, requireMain := false }

theorem switches_never_change_code_chatter :
    hush.trimUnreachableCode = ({} : Options).trimUnreachableCode ∧
      hush.trimUselessCode = ({} : Options).trimUselessCode ∧
      ({} : Options).MutesNothing ∧
      (ofItems hush chatter).result = (ofItems {} chatter).result ∧
      (ofItems {} chatter).warnings.map (·.concern) =
        [.invalidOperatorName "ask", .uselessCode, .unreachableCode, .uselessCode] ∧
      (ofItems hush chatter).warnings.map (·.concern) =
        [.invalidOperatorName "ask", .unreachableCode] := by
  have loud : ({} : Options).MutesNothing := ⟨rfl, rfl, rfl, rfl⟩
  obtain ⟨same, fewer⟩ := @switches_never_change_code hush {} rfl rfl chatter
  have given : (ofItems {} chatter).warnings.map (·.concern) =
      [.invalidOperatorName "ask", .uselessCode, .unreachableCode, .uselessCode] := by
    decide +kernel
  have left : ((ofItems {} chatter).warnings.filter hush.shows).map (·.concern) =
      [.invalidOperatorName "ask", .unreachableCode] := by
    decide +kernel
  exact ⟨rfl, rfl, loud, same, given, fewer loud ▸ left⟩

end Program
end ClassAsm
