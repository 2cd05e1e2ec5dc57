import ClassAsm.Proofs.Trimming.Twin
import ClassAsm.Proofs.Method.Chain

/-! Single statements, and the beginnings of loops and conditions, in the whole and in the trimmed
draft. Whatever the whole draft accepts, the trimmed one accepts too, and they go on as twins. -/

namespace ClassAsm

namespace Draft

open Scope (Leaves LeavesOne)

/-- The whole draft and the trimmed one, which has bound the names. -/
structure Both (o : Options) (site : Site) (P : Nat → Nat → Prop) (names : List String)
    (d d' : Draft) : Prop where
  twin : Twin o P d d'
  kin : Kin o names d.locals d'.locals
  fair : Fair site d
  fair' : Fair (site.under o) d'

/-- Both drafts go on in segments that belong together. -/
structure Synced (o : Options) (site : Site) (P : Nat → Nat → Prop) (names : List String)
    (d d' : Draft) : Prop extends Both o site P names d d' where
  sync : P d.current d'.current

variable {o : Options} {site : Site} {P : Nat → Nat → Prop} {names names' : List String}
  {d d' e e' : Draft} {code code' : List Instruction}

theorem Binds.kept {name : String} {type : TypeRef} {slot : Nat} (h : Binds d name type slot e) :
    ∀ n x, d.locals.find? n = some x → e.locals.find? n = some x := by
  cases h with
  | known => exact fun _ _ => id
  | new absent => exact fun _ ⟨_, _⟩ => Locals.find?_add_of_some absent

theorem Binds.fallsThrough {name : String} {type : TypeRef} {slot : Nat}
    (h : Binds d name type slot e) : e.fallsThrough = d.fallsThrough := by
  cases h <;> rfl

namespace Synced

theorem isMutedHere (h : Synced o site P names d d') : d'.isMutedHere = d.isMutedHere :=
  h.twin.muted _ _ h.sync

theorem isDead (h : Synced o site P names d d') : d'.isDead = d.isDead := by
  rw [Draft.isDead, Draft.isDead, h.twin.live _ _ h.sync, h.twin.ended _ _ h.sync]

theorem fallsThrough (h : Synced o site P names d d') : d'.fallsThrough = d.fallsThrough := by
  simp only [Draft.fallsThrough]
  rw [h.twin.live _ _ h.sync, h.twin.muted _ _ h.sync, h.twin.ended _ _ h.sync]

theorem emits (h : Synced o site P names d d') {target target' : Option Nat}
    (hs : Step site False d e) (hs' : Step (site.under o) False d' e')
    (he : Emits d e code target) (he' : Emits d' e' code' target')
    (hr : Option.Rel P target target') (hc : List.Forall₂ (Alike P d d') code code')
    (hl : e.locals = d.locals) (hl' : e'.locals = d'.locals) : Synced o site P names e e' where
  twin := h.twin.emits h.fair h.fair' (h.fair.step hs) h.sync he he' hr hc hl hl'
  kin := by rw [hl, hl']; exact h.kin
  fair := h.fair.step hs
  fair' := h.fair'.step hs'
  sync := by rw [he.current, he'.current]; exact h.sync

theorem piece (h : Synced o site P names d d') (ho : d.fallsThrough = true)
    (hc : Straight code) (hc' : Straight code') (hr : Renamed d.locals d'.locals code code') :
    Synced o site P names (d.emitAll code) (d'.emitAll code') :=
  h.emits (step_code h.fair.inRange ho ⟨hc, False.elim⟩)
    (step_code h.fair'.inRange (h.fallsThrough ▸ ho) ⟨hc', False.elim⟩)
    (emits_emitAll h.fair.inRange code) (emits_emitAll h.fair'.inRange code') .none
    (hr.imp fun _ _ => .renames) (locals_emitAll _) (locals_emitAll _)

theorem leave (h : Synced o site P names d d') (ho : d.fallsThrough = true)
    (hc : Straight code) (hc' : Straight code') (hr : Renamed d.locals d'.locals code code')
    (hasValue : Bool) :
    Synced o site P names ((d.emitAll code).emit (.ret hasValue))
      ((d'.emitAll code').emit (.ret hasValue)) := by
  have left : Step site False d ((d.emitAll code).emit (.ret hasValue)) :=
    step_leave h.fair.inRange ho ⟨hc, False.elim⟩
  have left' : Step (site.under o) False d' ((d'.emitAll code').emit (.ret hasValue)) :=
    step_leave h.fair'.inRange (h.fallsThrough ▸ ho) ⟨hc', False.elim⟩
  rw [emitAll_emit, emitAll_emit] at *
  exact h.emits left left' (emits_emitAll h.fair.inRange _) (emits_emitAll h.fair'.inRange _) .none
    (List.rel_append (hr.imp fun _ _ => .renames) (.cons (.ret hasValue) .nil))
    (locals_emitAll _) (locals_emitAll _)

theorem jump (h : Synced o site P names d d') (ho : d.fallsThrough = true) (hc : Straight code)
    (hc' : Straight code') (hr : Renamed d.locals d'.locals code code')
    {make : String → Instruction} {n t t' : Nat} (hj : Jump make n) (ht : P t t')
    (joint : d.IsJoint t) (joint' : d'.IsJoint t')
    (hm : (d.segment t).isMuted = true → d.isMutedHere = true) :
    Synced o site P names ((d.emitAll code).branch make t) ((d'.emitAll code').branch make t') := by
  have ho' : d'.fallsThrough = true := h.fallsThrough ▸ ho
  have hm' : (d'.segment t').isMuted = true → d'.isMutedHere = true := by
    rw [h.twin.muted t t' ht, h.isMutedHere]
    exact hm
  exact h.emits (step_jump h.fair.inRange ho hj ⟨hc, False.elim⟩ joint hm)
    (step_jump h.fair'.inRange ho' hj ⟨hc', False.elim⟩ joint' hm')
    (emits_branch h.fair.inRange ho hc joint.lt make)
    (emits_branch h.fair'.inRange ho' hc' joint'.lt make) (.some ht)
    (List.rel_append (hr.imp fun _ _ => .renames) (.cons (.jump hj ht) .nil))
    (by rw [locals_branch, locals_emitAll]) (by rw [locals_branch, locals_emitAll])

/-- Only the whole draft emits the code, which the trimmed one may skip. -/
theorem skips (h : Synced o site P names d d') (ho : d.fallsThrough = true)
    (hc : Straight code) (skips : d.isDead = false → Skippable o d code) :
    Synced o site P names (d.emitAll code) d' where
  twin := h.twin.skips ho (emits_emitAll h.fair.inRange code) (not_isTerminator_of_straight hc)
    (fun live => skips (by rw [isDead_eq_not_isLive ho, live]; rfl)) (locals_emitAll _)
  kin := by
    rw [locals_emitAll]
    exact h.kin
  fair := h.fair.step (step_code h.fair.inRange ho ⟨hc, False.elim⟩)
  fair' := h.fair'
  sync := by
    rw [current_emitAll]
    exact h.sync

theorem quiet (h : Synced o site P names d d') (hs : Step site False d e)
    (hs' : Step (site.under o) False d' e') (same : e.segments = d.segments)
    (same' : e'.segments = d'.segments) (hc : e.current = d.current)
    (hc' : e'.current = d'.current) (kin : Kin o names' e.locals e'.locals) :
    Synced o site P names' e e' where
  twin := h.twin.quiet same same' ⟨hs.grows.name, hs.grows.locals⟩
    ⟨hs'.grows.name, hs'.grows.locals⟩
  kin := kin
  fair := h.fair.step hs
  fair' := h.fair'.step hs'
  sync := by rw [hc, hc']; exact h.sync

theorem congr (h : Synced o site P names d d')
    (hn : o.trimUnreachableCode = true → ∀ n, n ∈ names' ↔ n ∈ names) :
    Synced o site P names' d d' :=
  { h with kin := h.kin.congr hn }

theorem noted_step (hr : d.InRange) (value : Expr) : Step site False d (d.noted site value) := by
  rcases @noted_eq_or site d value with h | h <;> rw [h]
  · exact Step.refl hr
  · exact step_warn hr _ _

theorem noted_segments (value : Expr) : (d.noted site value).segments = d.segments := by
  rcases @noted_eq_or site d value with h | h
  · rw [h]
  · rw [h]
    rfl

theorem noted_current (value : Expr) : (d.noted site value).current = d.current := by
  rcases @noted_eq_or site d value with h | h
  · rw [h]
  · rw [h]
    rfl

theorem noted (h : Synced o site P names d d') (value : Expr) :
    Synced o site P names (d.noted site value) (d'.noted (site.under o) value) :=
  h.quiet (noted_step h.fair.inRange value) (noted_step h.fair'.inRange value) (noted_segments _)
    (noted_segments _) (noted_current _) (noted_current _)
    (by rw [locals_noted, locals_noted]; exact h.kin)

/-- What the whole draft binds, the trimmed one binds. -/
theorem bind (h : Synced o site P names d d') {name : String} {type : TypeRef} {slot : Nat}
    (hb : Binds d name type slot e) (hr : e.Roomy) (span : Span) :
    ∃ slot' e', d'.bind (site.under o) name type span = .ok (slot', e') ∧
      Synced o site P (name :: names) e e' ∧ e.locals.find? name = some (slot, type) ∧
      e'.locals.find? name = some (slot', type) ∧ Binds d' name type slot' e' := by
  obtain ⟨slot', e', hb', kin, hl, hl', binds'⟩ := bind_kin h.kin hb hr (site.under o) span
  have step (site : Site) {d e : Draft} {slot : Nat} (hr : d.InRange)
      (hb : Binds d name type slot e) :
      Step site False d e ∧ e.segments = d.segments ∧ e.current = d.current := by
    cases hb with
    | known => exact ⟨Step.refl hr, rfl, rfl⟩
    | new => exact ⟨step_addLocal hr _ _, rfl, rfl⟩
  obtain ⟨s, same, current⟩ := step site h.fair.inRange hb
  obtain ⟨s', same', current'⟩ := step (site.under o) h.fair'.inRange binds'
  exact ⟨slot', e', hb', h.quiet s s' same same' current current' kin, hl, hl', binds'⟩

/-! The code of an expression. -/

variable (hs : site.registry.Installed site.builtins)

include hs

theorem exprCode (h : Synced o site P names d d') {value : Expr} {c : Code}
    (hc : (site.scope d.locals).code value = .ok c) (sp : d.spares o site names value = true) :
    ∃ c', ((site.under o).scope d'.locals).code value = .ok c' ∧ c'.type = c.type ∧
      Straight c.instructions ∧ Straight c'.instructions ∧
      Renamed d.locals d'.locals c.instructions c'.instructions := by
  obtain ⟨c', hc', type, same⟩ :=
    Scope.code_carries (s := site.scope d.locals) hs hc (agree_of_spares h.kin sp)
  exact ⟨c', hc', type, (Scope.code_leaves (s := site.scope d.locals) hs hc).straight,
    (Scope.code_leaves (s := (site.under o).scope d'.locals) hs hc').straight, same⟩

theorem valueCode (h : Synced o site P names d d') {value : Expr} {c : Code}
    (hc : (site.scope d.locals).valueCode value = .ok c)
    (sp : d.spares o site names value = true) :
    ∃ c', ((site.under o).scope d'.locals).valueCode value = .ok c' ∧ c'.type = c.type ∧
      Straight c.instructions ∧ Straight c'.instructions ∧
      Renamed d.locals d'.locals c.instructions c'.instructions := by
  obtain ⟨hc, hv⟩ := Scope.valueCode_eq_ok.1 hc
  obtain ⟨c', hc', type, straight, straight', same⟩ := h.exprCode hs hc sp
  refine ⟨c', Scope.valueCode_eq_ok.2 ⟨hc', ?_⟩, type, straight, straight', same⟩
  rw [type]
  exact hv

end Synced

/-! Statements without blocks. -/

theorem Synced.declare (h : Synced o site P names d d') {name typeName : String} {span : Span}
    (hd : d.declare site name span typeName = .ok e) (hr : e.Roomy) :
    ∃ e', d'.declare (site.under o) name span typeName = .ok e' ∧
      Synced o site P (name :: names) e e' := by
  obtain ⟨type, slot, ht, hb⟩ := declare_emits hd
  obtain ⟨slot', e', hb', synced, -⟩ := h.bind hb hr span
  refine ⟨e', ?_, synced⟩
  have resolved : d'.check (((site.under o).scope d'.locals).resolveType typeName span) =
      .ok type := check_eq_ok.2 ht
  simp only [Draft.declare, resolved, ok_bind, hb']

section

variable (hs : site.registry.Installed site.builtins)

include hs

theorem Synced.returnStmt (h : Synced o site P names d d') (ho : d.fallsThrough = true)
    {value : Option Expr} {span : Span} (hd : d.returnStmt site value span = .ok e)
    (sp : ∀ v, value = some v → d.spares o site names v = true) :
    ∃ e', d'.returnStmt (site.under o) value span = .ok e' ∧ Synced o site P names e e' := by
  rcases returnStmt_emits hd with ⟨rfl, void, rfl⟩ | ⟨v, c, rfl, hc, ht, rfl⟩
  · have left := h.leave ho Straight.nil Straight.nil .nil false
    refine ⟨_, ?_, left⟩
    have void' : (site.under o).returnsVoid = true := void
    simp only [Draft.returnStmt, void', if_true]
    rfl
  · obtain ⟨c', hc', type, straight, straight', same⟩ := h.exprCode hs hc (sp v rfl)
    refine ⟨_, ?_, h.leave ho straight straight' same _⟩
    have got : d'.expr (site.under o) v = .ok (c'.type, d'.emitAll c'.instructions) :=
      expr_eq_ok.2 ⟨c', hc', rfl, rfl⟩
    have wanted : c'.type = (site.under o).sig.returnType := type.trans ht
    simp only [Draft.returnStmt, got, ok_bind, wanted, ne_eq, not_true_eq_false, if_false, ht]
    rfl

/-- The code of a statement that makes no call leaves nothing, and slots in it are slots of
locals. -/
theorem skippable_of_idles {value : Expr} {c : Code} (trims : o.trimUselessCode = true)
    (hc : (site.scope d.locals).code value = .ok c) (idle : d.idles site value = true) :
    Skippable o d (c.instructions ++ if c.type.cls = site.builtins.void then [] else [.pop]) := by
  have leaves := Scope.code_leaves (s := site.scope d.locals) hs hc
  simp only [idles, hc, Bool.and_eq_true, List.all_eq_true, Bool.not_eq_true',
    Bool.and_eq_false_iff] at idle
  obtain ⟨quiet, tame⟩ := idle
  have moves := leaves.moves fun stray => tame.resolve_left (by simp [stray])
  refine ⟨trims, fun i hi => ?_, ?_, ?_⟩
  · rcases List.mem_append.1 hi with hi | hi
    · exact quiet i hi
    · split at hi
      · cases hi
      · rw [List.mem_singleton.1 hi]
        rfl
  · refine (Scope.code_renames (s := site.scope d.locals) hs hc).append (Renamed.of_same ?_)
    split <;> simp [Instruction.slot?, Instruction.isControl]
  · by_cases hv : c.type.cls = site.builtins.void
    · simpa [Scope.pushes, Scope.isVoid, Site.scope, hv] using moves
    · rw [if_neg hv]
      have one : Moves c.instructions 0 1 := by
        simpa [Scope.pushes, Scope.isVoid, Site.scope, hv] using moves
      exact one.append (Moves.one .pop)

/-- A useless statement can be dropped, and any other one is emitted. -/
theorem Synced.exprStmt (h : Synced o site P names d d') (ho : d.fallsThrough = true)
    (whole : site.options.trimUselessCode = false) {value : Expr}
    (hd : d.exprStmt site value = .ok e)
    (hk : (Task.one (.expr value)).keeps o site names d = some names') :
    ∃ e', d'.exprStmt (site.under o) value = .ok e' ∧ Synced o site P names' e e' := by
  obtain ⟨-, trims, -⟩ | ⟨c, hc, rfl⟩ := exprStmt_emits hd
  · rw [whole] at trims
    cases trims
  have pop : Straight (if c.type.cls = site.builtins.void then [] else [.pop]) := by
    split
    · exact Straight.nil
    · exact Straight.one rfl
  have straight := (Scope.code_leaves (s := site.scope d.locals) hs hc).straight.append pop
  have noted := h.noted value
  have ho' : (d.noted site value).fallsThrough = true := by
    rw [Draft.fallsThrough, segment, Synced.noted_segments, Synced.noted_current]
    exact ho
  have dead : (d.noted site value).isDead = d.isDead := by
    rw [Draft.isDead, segment, Synced.noted_segments, Synced.noted_current]
    rfl
  simp only [Task.keeps, stmtKeeps] at hk
  split at hk
  · next drops =>
    split at hk
    case isFalse => cases hk
    next idle =>
    cases hk
    refine ⟨d'.noted (site.under o) value, ?_, noted.skips ho' straight fun running => ?_⟩
    · unfold Draft.exprStmt
      exact if_pos drops
    · rw [← dead, running, Bool.false_or] at idle
      rw [← locals_noted site d value] at hc
      refine skippable_of_idles hs (Bool.and_eq_true_iff.1 drops).2 hc ?_
      rw [idles, locals_noted]
      exact idle
  · next stays =>
    split at hk
    case isFalse => cases hk
    next sp =>
    cases hk
    obtain ⟨c', hc', type, -, straight', same⟩ := h.exprCode hs hc sp
    have emitted : d'.exprStmt (site.under o) value =
        .ok ((d'.noted (site.under o) value).emitAll (c'.instructions ++
          if c.type.cls = site.builtins.void then [] else [.pop])) := by
      have got : (d'.noted (site.under o) value).expr (site.under o) value =
          .ok (c'.type, (d'.noted (site.under o) value).emitAll c'.instructions) :=
        expr_eq_ok.2 ⟨c', by rw [locals_noted]; exact hc', rfl, rfl⟩
      unfold Draft.exprStmt
      refine (if_neg stays).trans ?_
      change (d'.noted (site.under o) value).expr (site.under o) value >>= _ = _
      rw [got, ok_bind, type]
      change Except.ok (if c.type.cls = site.builtins.void then _ else _) = _
      split
      · rw [List.append_nil]
      · rw [emitAll_emit]
    refine ⟨_, emitted, noted.piece ho' straight (straight'.append pop) ?_⟩
    rw [locals_noted, locals_noted]
    refine same.append (Renamed.of_same ?_)
    split <;> simp [Instruction.slot?, Instruction.isControl]

end

/-! Assignments. -/

section

variable {name : String} {span : Span} {typeName : Option String} {value : Expr} {f : Field}

theorem assign_of_static (hl : d.locals.find? name = none)
    (hf : (site.scope d.locals).field? name = some f) (hst : f.isStatic = true) {c : Code}
    (hc : (site.scope d.locals).valueCode value = .ok c) (ht : c.type = f.type) :
    d.assign site name span none value =
      .ok (d.emitAll (c.instructions ++ [.stsfld (site.registry.fieldTarget site.owner f)])) := by
  have got := value_eq_ok.2 ⟨c, hc, rfl, rfl⟩
  simp only [assign, hl, hf, assignField, hst, Bool.not_true, Bool.false_and, Bool.false_eq_true,
    if_false, if_true, got, ok_bind, ht, ne_eq, not_true_eq_false]
  rw [emitAll_emit]

theorem assign_of_instance (hl : d.locals.find? name = none)
    (hf : (site.scope d.locals).field? name = some f) (hst : f.isStatic = false)
    (hr : site.sig.takesReceiver = true) {c : Code}
    (hc : (site.scope d.locals).valueCode value = .ok c) (ht : c.type = f.type) :
    d.assign site name span none value = .ok (d.emitAll ([.ldarg 0] ++ c.instructions ++
      [.stfld (site.registry.fieldTarget site.owner f)])) := by
  have got := (value_eq_ok (d := d.emit (.ldarg 0))).2 ⟨c, hc, rfl, rfl⟩
  simp only [assign, hl, hf, assignField, hst, hr, Bool.not_true, Bool.and_false,
    Bool.false_eq_true, if_false, got, ok_bind, ht, ne_eq, not_true_eq_false]
  rw [emitAll_append, emitAll_append]
  rfl

theorem assign_of_address {slot : Nat} {type : TypeRef}
    (hl : d.locals.find? name = some (slot, type)) (ha : type.isAddress = true) {c : Code}
    (hc : (site.scope d.locals).valueCode value = .ok c) (ht : c.type = type.valueType) :
    d.assign site name span none value = .ok (d.emitAll ([.ldloc slot] ++ c.instructions ++
      [.stind (site.builtins.elementKind type.cls)])) := by
  have got := (value_eq_ok (d := d.emit (.ldloc slot))).2 ⟨c, hc, rfl, rfl⟩
  simp only [assign, hl, ha, if_true, assignThrough, got, ok_bind, ht, ne_eq, not_true_eq_false,
    if_false]
  rw [emitAll_append, emitAll_append]
  rfl

theorem assign_of_local
    (hn : typeName = none → d.locals.find? name = none →
      (site.scope d.locals).field? name = none)
    (ha : typeName = none → ∀ s t, d.locals.find? name = some (s, t) → t.isAddress = false)
    {c : Code} (hd : ∀ text, typeName = some text →
      (site.scope d.locals).resolveType text span = .ok c.type)
    (hc : (site.scope d.locals).valueCode value = .ok c) {slot : Nat}
    (hb : d.bind site name c.type span = .ok (slot, e)) :
    d.assign site name span typeName value =
      .ok (e.emitAll (c.instructions ++ [.stloc slot])) := by
  have viaLocal : d.assign site name span typeName value =
      d.assignLocal site name span typeName value := by
    cases typeName with
    | some text => rfl
    | none =>
      cases hl : d.locals.find? name with
      | none => simp only [assign, hl, hn rfl hl]
      | some x => simp [assign, hl, ha rfl x.1 x.2 hl]
  have got := value_eq_ok.2 ⟨c, hc, rfl, rfl⟩
  -- the code of the value does not change the locals
  have bound : (d.emitAll c.instructions).bind site name c.type span =
      .ok (slot, e.emitAll c.instructions) := by
    cases found : d.locals.find? name with
    | some known =>
      have found' : (d.emitAll c.instructions).locals.find? name = some known := by
        rwa [locals_emitAll]
      rw [bind_of_some found] at hb
      rw [bind_of_some found']
      split at hb <;> cases hb
      next same => rw [if_pos same]
    | none =>
      have found' : (d.emitAll c.instructions).locals.find? name = none := by rwa [locals_emitAll]
      rw [bind_of_none found] at hb
      rw [bind_of_none found', locals_emitAll]
      split at hb <;> cases hb
      next room => rw [if_neg room, emitAll_addLocal]
  rw [viaLocal, ← emitAll_emit]
  cases typeName with
  | none =>
    simp only [assignLocal, ok_bind, got, Option.getD_none, ne_eq, not_true_eq_false, if_false,
      bound]
  | some text =>
    have resolved : d.check ((site.scope d.locals).resolveType text span) = .ok c.type :=
      check_eq_ok.2 (hd text rfl)
    simp only [assignLocal, resolved, Except.map, ok_bind, got, Option.getD_some, ne_eq,
      not_true_eq_false, if_false, bound]

/-- A field, or a local that is there already, needs no note. -/
theorem assignKeeps_old (hk : d.assignKeeps o site names name none = some names')
    (h : name ∈ names ∨ d.locals.find? name = none ∧
      ((site.scope d.locals).field? name).isSome = true) : names' = names := by
  unfold assignKeeps at hk
  by_cases hn : name ∈ names
  · simpa [hn, eq_comm] using hk
  · obtain ⟨hl, hf⟩ := h.resolve_left hn
    simpa [hn, hl, hf, eq_comm] using hk

theorem assignKeeps_local (hk : d.assignKeeps o site names name typeName = some names')
    (h : typeName = none → d.locals.find? name = none →
      (site.scope d.locals).field? name = none) (n : String) :
    n ∈ names' ↔ n ∈ name :: names := by
  unfold assignKeeps at hk
  cases typeName with
  | some text =>
    obtain rfl : name :: names = names' := by simpa using hk
    rfl
  | none =>
    by_cases hn : name ∈ names
    · obtain rfl : names = names' := by simpa [hn] using hk
      rw [List.mem_cons]
      exact ⟨.inr, fun h => h.elim (fun he => he ▸ hn) id⟩
    · cases hl : d.locals.find? name with
      | none =>
        obtain rfl : name :: names = names' := by simpa [hn, hl, h rfl hl] using hk
        rfl
      | some x =>
        simp only [Option.isSome_none, Bool.false_eq_true, if_false, List.contains_iff_mem, hn,
          hl] at hk
        split at hk
        · cases hk
        · obtain rfl := Option.some.inj hk
          rfl

/-- A local that only dropped code has bound becomes one without an address. -/
theorem assignKeeps_lost (on : o.trimUnreachableCode = true)
    (hk : d.assignKeeps o site names name none = some names') (hn : name ∉ names) {slot : Nat}
    {type : TypeRef} (hl : d.locals.find? name = some (slot, type)) :
    (site.scope d.locals).field? name = none ∧ type.isAddress = false := by
  unfold assignKeeps at hk
  simp only [Option.isSome_none, Bool.false_eq_true, if_false, List.contains_iff_mem, hn, hl, on,
    Bool.true_and] at hk
  split at hk
  · cases hk
  · next plain => simpa using plain

/-- What is assigned without a type is no field for the trimmed draft if it is none for the whole
one. -/
theorem Synced.field?_eq_none (h : Synced o site P names d d')
    (hk : d.assignKeeps o site names name none = some names')
    (hf : d.locals.find? name = none → (site.scope d.locals).field? name = none)
    (hl' : d'.locals.find? name = none) : (site.scope d.locals).field? name = none := by
  cases hl : d.locals.find? name with
  | none => exact hf hl
  | some x =>
    cases on : o.trimUnreachableCode with
    | false =>
      rw [h.kin.same on, hl] at hl'
      cases hl'
    | true =>
      have lost : name ∉ names := fun hn => by
        obtain ⟨_, _, _, -, found⟩ := h.kin.kept on name hn
        rw [hl'] at found
        cases found
      exact (assignKeeps_lost on hk lost hl).1

theorem Synced.address (h : Synced o site P names d d')
    (hk : d.assignKeeps o site names name none = some names') {slot : Nat} {type : TypeRef}
    (hl : d.locals.find? name = some (slot, type)) (ha : type.isAddress = true) :
    ∃ slot', d'.locals.find? name = some (slot', type) ∧
      (o.trimUnreachableCode = true → names' = names) := by
  cases on : o.trimUnreachableCode with
  | false => exact ⟨slot, by rw [h.kin.same on, hl], nofun⟩
  | true =>
    by_cases hn : name ∈ names
    · obtain ⟨slot', hl'⟩ := (h.kin.agree_of_mem on hn).some hl
      exact ⟨slot', hl', fun _ => assignKeeps_old hk (.inl hn)⟩
    · rw [(assignKeeps_lost on hk hn hl).2] at ha
      cases ha

variable (hs : site.registry.Installed site.builtins)

include hs

/-- A local gets its value, and the trimmed draft binds the name too. -/
theorem Synced.assignLocal (h : Synced o site P names d d') (ho : d.fallsThrough = true)
    (hk : d.assignKeeps o site names name typeName = some names')
    (sp : d.spares o site names value = true) {slot : Nat} {c : Code} {d₀ : Draft}
    (hn : typeName = none → d.locals.find? name = none →
      (site.scope d.locals).field? name = none)
    (ha : typeName = none → ∀ s t, d.locals.find? name = some (s, t) → t.isAddress = false)
    (hd : ∀ text, typeName = some text → ∃ span,
      (site.scope d.locals).resolveType text span = .ok c.type)
    (hc : (site.scope d.locals).valueCode value = .ok c) (hb : Binds d name c.type slot d₀)
    (hr : d₀.Roomy) :
    ∃ e', d'.assign (site.under o) name span typeName value = .ok e' ∧
      Synced o site P names' (d₀.emitAll (c.instructions ++ [.stloc slot])) e' := by
  obtain ⟨c', hc', type, straight, straight', same⟩ := h.valueCode hs hc sp
  obtain ⟨slot', d₀', hb', bound, hl, hl', binds'⟩ := h.bind hb hr span
  rw [← type] at hb'
  have field' (hp : typeName = none) (hl' : d'.locals.find? name = none) :
      ((site.under o).scope d'.locals).field? name = none := by
    subst hp
    exact h.field?_eq_none hk (hn rfl) hl'
  have value' (hp : typeName = none) (s t) (hl' : d'.locals.find? name = some (s, t)) :
      t.isAddress = false := by
    obtain ⟨slot, hl⟩ := h.kin.within hl'
    exact ha hp slot t hl
  have declared' (text : String) (ht : typeName = some text) :
      ((site.under o).scope d'.locals).resolveType text span = .ok c'.type := by
    obtain ⟨span', resolved⟩ := hd text ht
    rw [type, Scope.resolveType_eq_ok]
    exact Scope.resolveType_eq_ok.1 resolved
  refine ⟨_, assign_of_local field' value' declared' hc' hb', ?_⟩
  have old : Renamed d₀.locals d₀'.locals c.instructions c'.instructions :=
    same.imp fun _ _ hi => hi.mono hb.kept binds'.kept
  refine (bound.piece (hb.fallsThrough.trans ho) (straight.append (Straight.one rfl))
    (straight'.append (Straight.one rfl))
    (old.append (.cons (.slot .store hl hl') .nil))).congr fun _ => ?_
  exact assignKeeps_local hk hn

theorem Synced.assign (h : Synced o site P names d d') (ho : d.fallsThrough = true)
    (hd : d.assign site name span typeName value = .ok e) (hr : e.Roomy) {stmtSpan : Span}
    (hk : (Task.one (.assign name span typeName value stmtSpan)).keeps o site names d =
      some names') :
    ∃ e', d'.assign (site.under o) name span typeName value = .ok e' ∧
      Synced o site P names' e e' := by
  simp only [Task.keeps, stmtKeeps] at hk
  split at hk
  case isFalse => cases hk
  next sp =>
  have assigned := assign_emits hd
  cases assigned with
  | @toStatic f c hl hf hst hc ht =>
    obtain ⟨c', hc', type, straight, straight', same⟩ := h.valueCode hs hc sp
    have fixed : names' = names := assignKeeps_old hk (.inr ⟨hl, by rw [hf]; rfl⟩)
    refine ⟨_, assign_of_static (h.kin.eq_none hl) hf hst hc' (type.trans ht), ?_⟩
    rw [fixed]
    exact h.piece ho (straight.append (Straight.one rfl)) (straight'.append (Straight.one rfl))
      (same.append (.cons (.same rfl rfl) .nil))
  | @toInstance f c hl hf hst hrec hc ht =>
    obtain ⟨c', hc', type, straight, straight', same⟩ := h.valueCode hs hc sp
    have fixed : names' = names := assignKeeps_old hk (.inr ⟨hl, by rw [hf]; rfl⟩)
    refine ⟨_, assign_of_instance (h.kin.eq_none hl) hf hst hrec hc' (type.trans ht), ?_⟩
    rw [fixed]
    exact h.piece ho (straight.between rfl rfl) (straight'.between rfl rfl)
      (same.between (.same rfl rfl) (.same rfl rfl))
  | through hl ha hc ht =>
    obtain ⟨c', hc', type', straight, straight', same⟩ := h.valueCode hs hc sp
    obtain ⟨slot', hl', fixed⟩ := h.address hk hl ha
    refine ⟨_, assign_of_address hl' ha hc' (type'.trans ht), ?_⟩
    refine (h.piece ho (straight.between rfl rfl) (straight'.between rfl rfl)
      (same.between (.slot .load hl hl') (.same rfl rfl))).congr fun on n => ?_
    rw [fixed on]
  | toLocal hn ha hdecl hc hb =>
    exact h.assignLocal hs ho hk sp hn ha hdecl hc hb (hr.of_locals (locals_emitAll _).symm)

end

end Draft
end ClassAsm
