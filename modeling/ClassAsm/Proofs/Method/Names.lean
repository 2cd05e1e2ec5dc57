import ClassAsm.Proofs.Method.Locals
import ClassAsm.Proofs.Source.Names

/-! The names in a compiled method. Its locals have the names of its parameters and variables, and
its segments have labels, so all of them are words. -/

namespace ClassAsm

theorem IsWord.append {s t : String} (h : IsWord s) (h' : IsWord t) : IsWord (s ++ t) := by
  intro c hc
  rw [String.toList_append] at hc
  exact (List.mem_append.1 hc).elim (h c) (h' c)

theorem isWord_toString (n : Nat) : IsWord (toString n) := by
  intro c hc
  have listed : c ∈ Nat.toDigits 10 n := by simpa [toString, Nat.toList_repr] using hc
  have digit := Nat.isDigit_of_mem_toDigits (by decide) (by decide) listed
  rw [Piece.isWordPart, show Piece.isDigit c = true from digit, Bool.or_true]

namespace Draft

theorem isWord_label {stem : String} (h : IsWord stem) (n : Nat) : IsWord (label stem n) :=
  (h.append (by decide)).append (isWord_toString n)

/-- All segments and locals are named by words. -/
structure Worded (d : Draft) : Prop where
  segments : ∀ i, IsWord (d.segment i).name
  locals : ∀ l ∈ d.locals.toList, IsWord l.1

variable {site : Site} {d d' : Draft}

namespace Worded

theorem of_same (h : d.Worded) (names : ∀ i, (d'.segment i).name = (d.segment i).name)
    (locals : d'.locals = d.locals) : d'.Worded :=
  ⟨fun i => by rw [names]; exact h.segments i, by rw [locals]; exact h.locals⟩

theorem emit (h : d.Worded) (x : Instruction) : (d.emit x).Worded :=
  h.of_same (emit_sameFrame x).name rfl

theorem emitAll (h : d.Worded) (c : List Instruction) : (d.emitAll c).Worded :=
  h.of_same (emitAll_sameFrame c).name (emitAll_sameFrame c).locals

theorem branch (h : d.Worded) (make : String → Instruction) (t : Nat) : (d.branch make t).Worded :=
  h.of_same (fun _ => name_branch make) rfl

theorem spawnFresh (h : d.Worded) {stem : String} (hs : IsWord stem) (muted : Bool) :
    (d.spawnFresh stem muted).2.Worded := by
  refine ⟨fun i => ?_, h.locals⟩
  rw [segment_spawnFresh]
  split
  · exact isWord_label hs _
  · exact h.segments i

theorem addLocal (h : d.Worded) {name : String} (hn : IsWord name) (type : TypeRef)
    (new : d.locals.find? name = none) : (d.addLocal name type).Worded := by
  refine ⟨h.segments, ?_⟩
  rw [Draft.addLocal, Locals.toList_add new]
  exact List.forall_mem_append.2 ⟨h.locals, List.forall_mem_singleton.2 hn⟩

theorem enterUnreachable (h : d.Worded) : d.enterUnreachable.Worded := by
  rw [enterUnreachable_eq]
  exact (h.spawnFresh (by decide) true).of_same (fun _ => rfl) rfl

theorem join (h : d.Worded) (t : Nat) : (d.join t).Worded := by
  unfold Draft.join
  split
  · exact h.branch _ t
  · exact h

theorem noted (h : d.Worded) (e : Expr) : (d.noted site e).Worded := by
  rcases @noted_eq_or site d e with he | he <;> rw [he]
  · exact h
  · exact h.of_same (fun _ => rfl) rfl

theorem binds (h : d.Worded) {name : String} (hn : IsWord name) {type : TypeRef} {slot : Nat}
    (hb : Binds d name type slot d') : d'.Worded := by
  cases hb with
  | known => exact h
  | new new => exact h.addLocal hn type new

theorem admits (h : d.Worded) {span : Span} {b : Bool} (ha : Admits site span d d' b) :
    d'.Worded := by
  have warned : (if site.options.muteUnreachableCode then d
      else d.warn .unreachableCode span).Worded := by
    split
    · exact h
    · exact h.of_same (fun _ => rfl) rfl
  cases ha with
  | running | muted => exact h
  | mutedFresh => exact h.enterUnreachable
  | dropped => exact warned
  | kept => exact warned.enterUnreachable

theorem assigned (h : d.Worded) {name : String} (hn : IsWord name) {e : Expr}
    {typeName : Option String} (ha : Assigned site d name e typeName d') : d'.Worded := by
  cases ha with
  | toStatic | toInstance | through => exact h.emitAll _
  | toLocal _ _ _ _ hb => exact (h.binds hn hb).emitAll _

theorem condition (h : d.Worded) {a : Arm} {segment : Nat}
    (hc : d.condition site a = .ok (segment, d')) : d'.Worded := by
  obtain ⟨c, -, -, rfl⟩ := condition_eq_ok.1 hc
  exact ((h.spawnFresh (by decide) false).emitAll _).branch _ _

end Worded

/-- The variables in the task are named by words. -/
def Task.IsWorded : Task → Prop
  | .block ss => Stmt.AreWorded ss
  | .one s => s.IsWorded
  | .arms _ xs => ∀ x ∈ xs, Stmt.AreWorded x.2.body.stmts

/-- The blocks of a condition are named by words if the condition is. -/
theorem isWorded_cond {first : Arm} {rest : List Arm} {otherwise : Option Block} {span : Span}
    (h : (Stmt.cond first rest otherwise span).IsWorded) :
    Stmt.AreWorded (elseStmts otherwise) ∧ ∀ a ∈ first :: rest, Stmt.AreWorded a.body.stmts := by
  obtain ⟨here, arms, last⟩ := Stmt.isWorded_cond.1 h
  refine ⟨?_, List.forall_mem_cons.2 ⟨here, Arm.areWorded_iff.1 arms⟩⟩
  match otherwise with
  | none => trivial
  | some b => exact last b rfl

/-- Statements whose variables are named by words add no other names. -/
theorem Worded.run {t : Task} (hr : Run site t d d') (ht : t.IsWorded) (h : d.Worded) :
    d'.Worded := by
  induction hr with
  | done | noArms => exact h
  | drop ha => exact h.admits (Draft.admits ha)
  | next ha _ _ ihs ihr => exact ihr ht.2 (ihs ht.1 (h.admits (Draft.admits ha)))
  | expr he =>
    obtain ⟨-, -, rfl⟩ | ⟨_, -, rfl⟩ := exprStmt_emits he
    · exact h.noted _
    · exact (h.noted _).emitAll _
  | declare hd =>
    obtain ⟨_, _, -, hb⟩ := declare_emits hd
    exact h.binds ht hb
  | assign ha => exact h.assigned ht (assign_emits ha)
  | ret hret =>
    obtain ⟨-, -, rfl⟩ | ⟨_, _, -, -, -, rfl⟩ := returnStmt_emits hret
    · exact h.emit _
    · exact (h.emitAll _).emit _
  | @loop d _ _ _ body _ _ _ hl _ ih =>
    obtain ⟨code, -, -, -, rfl⟩ := loopStart_eq_ok.1 hl
    have segments : d.loopSegments.Worded :=
      (h.spawnFresh (by decide) false).spawnFresh (by decide) false
    have head : d.loopHead.Worded := (segments.branch .br _).of_same (fun _ => rfl) rfl
    obtain ⟨_, _⟩ := body
    exact ((ih ht ((head.emitAll _).branch _ _)).join _).of_same (fun _ => rfl) rfl
  | cond hc _ _ iho iha =>
    obtain ⟨otherwise, arms⟩ := isWorded_cond ht
    have start := condStart_invariant hc (h.spawnFresh (by decide) false)
      fun _ _ _ _ _ _ hx ha => hx.condition ha
    have filled := iha (fun x hx => arms _ (List.of_mem_zip hx).2) ((iho otherwise start).join _)
    exact filled.of_same (fun _ => rfl) rfl
  | arm _ _ ih iht =>
    obtain ⟨here, rest⟩ := List.forall_mem_cons.1 ht
    exact iht rest ((ih here (h.of_same (fun _ => rfl) rfl)).join _)

theorem Worded.params (h : d.Worded) {n : Nat} {ps : List (Param × TypeRef)}
    (hn : ∀ p ∈ ps, IsWord p.1.name) (hp : d.params site n ps = .ok d') : d'.Worded := by
  induction ps generalizing d n with
  | nil =>
    cases hp
    exact h
  | cons p ps ih =>
    obtain ⟨p, type⟩ := p
    obtain ⟨here, rest⟩ := List.forall_mem_cons.1 hn
    obtain ⟨new, -, hp⟩ := params_cons_eq_ok hp
    exact ih ((h.addLocal here type new).emitAll _) rest hp

theorem Worded.defaults (h : d.Worded) {isStatic : Bool} {fs : List Field}
    (hd : d.defaults site isStatic fs = .ok d') : d'.Worded := by
  induction fs generalizing d with
  | nil =>
    cases hd
    exact h
  | cons f fs ih =>
    by_cases skip : f.default = none ∨ f.isStatic ≠ isStatic
    · rw [defaults_cons_of_other fs skip] at hd
      exact ih h hd
    · push Not at skip
      obtain ⟨stored, rfl⟩ := skip
      obtain ⟨value, hv⟩ := Option.ne_none_iff_exists'.1 stored
      obtain ⟨_, -, -, hd⟩ := (defaults_cons_eq_ok hv).1 hd
      exact ih (h.emitAll _) hd

theorem Worded.start (labels : Nat) (warnings : Array Warning) :
    (Draft.start labels warnings).Worded := by
  refine ⟨fun i => ?_, nofun⟩
  match i with
  | 0 => exact (by decide : IsWord startName)
  | i + 1 => exact (by decide : IsWord "")

theorem Worded.finished (h : d.Worded) : ∀ s ∈ d.finished site, IsWord s.name := by
  intro s hs
  obtain ⟨i, -, rfl⟩ := List.mem_map.1 hs
  exact h.segments i

end Draft

/-- A method whose parameters and variables are named by words. -/
def MethodSource.IsWorded : MethodSource → Prop
  | .declared decl => decl.IsWorded
  | .initializer _ => True

/-- The locals and the segments of a compiled method are named by words. -/
theorem Method.compile_worded {m m' : Method} {site : Site} {source : MethodSource} {l l' : Nat}
    {w w' : Array Warning} (hw : source.IsWorded)
    (h : m.compile site source l w = .ok (m', l', w')) :
    (∀ x ∈ m'.locals, IsWord x.1) ∧
      ∀ segments, m'.body = .segments segments → ∀ s ∈ segments, IsWord s.name := by
  obtain ⟨segments, d', hsrc, rfl, -⟩ := compile_eq_ok.1 h
  suffices ∃ (d : Draft) (span : Span), d.Worded ∧ d.finish site span = .ok (segments, d') by
    obtain ⟨d, span, worded, hf⟩ := this
    have fin := Draft.finish_eq_ok hf
    refine ⟨by rw [compiled, fin.locals]; exact worded.locals, fun _ he => ?_⟩
    rw [← MethodBody.segments.inj he, fin.segments]
    exact worded.finished
  have start := Draft.Worded.start l w
  cases source with
  | declared decl =>
    simp only [Draft.source, bind_eq_ok] at hsrc
    obtain ⟨d₀, hp, d, hd, hf⟩ := hsrc
    have opened := start.params (fun p hp => hw.params _ (List.of_mem_zip hp).1) hp
    exact ⟨d, _, opened.run (Draft.run_block _ hd) hw.body, hf⟩
  | initializer isStatic =>
    simp only [Draft.source, bind_eq_ok] at hsrc
    obtain ⟨d, hd, hf⟩ := hsrc
    rw [Draft.emitAll_basing] at hd
    exact ⟨d, _, (start.emitAll _).defaults hd, hf⟩

end ClassAsm
