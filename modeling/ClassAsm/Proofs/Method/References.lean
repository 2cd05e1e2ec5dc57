import ClassAsm.Proofs.Code.References
import ClassAsm.Proofs.Method.Locals
import ClassAsm.Method.Compiled

/-! What the segments of a method refer to. Besides the code of expressions a method has only moves
between slots, branches, returns and accesses to fields of its class, so all of it refers to what is
declared. -/

namespace ClassAsm

open Registry

/-- The declarations around a method, whatever its locals are. -/
def Site.Sees (s : Site) : Prop := ∀ locals, (s.scope locals).Sees

namespace Draft

variable {site : Site} {d d' : Draft}

/-- Every segment refers to what is declared. -/
def Known (d : Draft) (site : Site) : Prop :=
  ∀ i, AllKnown site.registry site.builtins.void site.owner (d.codeAt i)

theorem Known.of_codeAt (h : d.Known site) (hc : ∀ i, d'.codeAt i = d.codeAt i) : d'.Known site :=
  fun i => by rw [hc]; exact h i

theorem Known.emit (h : d.Known site) {x : Instruction}
    (hx : site.registry.Knows site.builtins.void site.owner x) : (d.emit x).Known site := by
  intro i
  rw [codeAt, segment_emit]
  split
  · simpa using ⟨h i, hx⟩
  · exact h i

theorem Known.emitAll (h : d.Known site) {c : List Instruction}
    (hc : AllKnown site.registry site.builtins.void site.owner c) : (d.emitAll c).Known site := by
  induction c generalizing d with
  | nil => exact h
  | cons x c ih =>
    obtain ⟨hx, hc⟩ := AllKnown.cons_iff.1 hc
    exact ih (h.emit hx) hc

theorem Known.branch (h : d.Known site) {make : String → Instruction} (t : Nat)
    (hm : ∀ l, site.registry.Knows site.builtins.void site.owner (make l)) :
    (d.branch make t).Known site := by
  rw [branch_eq]
  exact (h.of_codeAt fun _ => codeAt_mark _).emit (hm _)

theorem Known.spawnFresh (h : d.Known site) (stem : String) (muted : Bool) :
    (d.spawnFresh stem muted).2.Known site :=
  h.of_codeAt fun _ => codeAt_spawnFresh _ _

theorem Known.join (h : d.Known site) (t : Nat) : (d.join t).Known site := by
  unfold Draft.join
  split
  · exact h.branch t fun _ => trivial
  · exact h

theorem Known.noted (h : d.Known site) (e : Expr) : (d.noted site e).Known site := by
  rcases @noted_eq_or site d e with he | he <;> rw [he]
  · exact h
  · exact h.of_codeAt fun _ => rfl

theorem Known.binds (h : d.Known site) {name : String} {type : TypeRef} {slot : Nat}
    (hb : Binds d name type slot d') : d'.Known site := by
  cases hb with
  | known => exact h
  | new => exact h.of_codeAt fun _ => rfl

theorem Known.admits (h : d.Known site) {span : Span} {b : Bool}
    (ha : Admits site span d d' b) : d'.Known site := by
  have warned : (if site.options.muteUnreachableCode then d
      else d.warn .unreachableCode span).Known site := by
    split
    · exact h
    · exact h.of_codeAt fun _ => rfl
  have entered {x : Draft} (hx : x.Known site) : x.enterUnreachable.Known site := by
    rw [enterUnreachable_eq]
    exact (hx.spawnFresh "Unreachable" true).of_codeAt fun _ => rfl
  cases ha with
  | running | muted => exact h
  | mutedFresh => exact entered h
  | dropped => exact warned
  | kept => exact entered warned

theorem Known.assigned (hs : site.Sees) (h : d.Known site) {name : String} {e : Expr}
    {typeName : Option String} (ha : Assigned site d name e typeName d') : d'.Known site := by
  have value {c : Code} (hc : (site.scope d.locals).valueCode e = .ok c) :
      AllKnown site.registry site.builtins.void site.owner c.instructions :=
    Scope.valueCode_known (hs d.locals) hc
  cases ha with
  | toStatic _ hf hst hc =>
    obtain ⟨c, hcls, hm⟩ := Scope.exists_field hf
    have target : site.registry.HasField site.owner true (site.registry.fieldTarget site.owner _) :=
      ⟨c, _, hcls, hm, hst, rfl⟩
    exact h.emitAll (by simpa [value hc, Knows] using target)
  | toInstance _ hf hst _ hc =>
    obtain ⟨c, hcls, hm⟩ := Scope.exists_field hf
    have target : site.registry.HasField site.owner false (site.registry.fieldTarget site.owner _) :=
      ⟨c, _, hcls, hm, hst, rfl⟩
    exact h.emitAll (by simpa [value hc, Knows] using target)
  | through _ _ hc => exact h.emitAll (by simp [value hc, Knows])
  | toLocal _ _ _ hc hb => exact (h.binds hb).emitAll (by simp [value hc, Knows])

theorem Known.condition (hs : site.Sees) (h : d.Known site) {a : Arm} {segment : Nat}
    (hc : d.condition site a = .ok (segment, d')) : d'.Known site := by
  obtain ⟨c, hv, -, rfl⟩ := condition_eq_ok.1 hc
  exact ((h.spawnFresh "Cond" false).emitAll (Scope.valueCode_known (hs d.locals) hv)).branch _
    fun _ => trivial

/-- Compiling statements adds nothing that is not declared. -/
theorem Known.run (hs : site.Sees) {t : Task} (hr : Run site t d d') (h : d.Known site) :
    d'.Known site := by
  induction hr with
  | done | noArms => exact h
  | drop ha => exact h.admits (Draft.admits ha)
  | next ha _ _ ihs ihr => exact ihr (ihs (h.admits (Draft.admits ha)))
  | @expr d _ _ he =>
    obtain ⟨-, -, rfl⟩ | ⟨c, hc, rfl⟩ := exprStmt_emits he
    · exact h.noted _
    · refine (h.noted _).emitAll ?_
      have drop : AllKnown site.registry site.builtins.void site.owner
          (if c.type.cls = site.builtins.void then [] else [.pop]) := by
        split <;> simp [Knows]
      exact AllKnown.append_iff.2 ⟨Scope.code_known (hs d.locals) hc, drop⟩
  | declare hd =>
    obtain ⟨_, _, -, hb⟩ := declare_emits hd
    exact h.binds hb
  | assign ha => exact h.assigned hs (assign_emits ha)
  | @ret d _ _ _ hret =>
    obtain ⟨-, -, rfl⟩ | ⟨_, c, -, hc, -, rfl⟩ := returnStmt_emits hret
    · exact h.emit trivial
    · exact (h.emitAll (Scope.code_known (hs d.locals) hc)).emit trivial
  | @loop d _ _ _ _ _ _ _ hl _ ih =>
    obtain ⟨code, hc, -, -, rfl⟩ := loopStart_eq_ok.1 hl
    have segments : d.loopSegments.Known site :=
      (h.spawnFresh "Cond" false).spawnFresh "AfterCond" false
    have head : d.loopHead.Known site :=
      (@Known.branch site _ segments .br _ fun _ => trivial).of_codeAt fun _ => rfl
    have body := ih ((head.emitAll (Scope.valueCode_known (hs d.locals) hc)).branch _
      fun _ => trivial)
    exact (body.join _).of_codeAt fun _ => rfl
  | cond hc _ _ iho iha =>
    have start := condStart_invariant (P := (·.Known site)) hc (h.spawnFresh "AfterCond" false)
      fun _ _ _ _ _ _ hx ha => hx.condition hs ha
    exact (iha ((iho start).join _)).of_codeAt fun _ => rfl
  | arm _ _ ih iht => exact iht ((ih (h.of_codeAt fun _ => rfl)).join _)

theorem Known.params (h : d.Known site) {n : Nat} {ps : List (Param × TypeRef)}
    (hp : d.params site n ps = .ok d') : d'.Known site := by
  induction ps generalizing d n with
  | nil =>
    cases hp
    exact h
  | cons p ps ih =>
    obtain ⟨p, type⟩ := p
    rw [Draft.params] at hp
    split at hp
    · cases hp
    split at hp
    · cases hp
    have bound : (d.addLocal p.name type).Known site := h.of_codeAt fun _ => rfl
    exact ih ((bound.emit (by trivial)).emit (by trivial)) hp

theorem Known.defaults (hs : site.Sees) (h : d.Known site) {isStatic : Bool} {c : Class}
    (hc : site.registry.class? site.owner = some c) {fs : List Field} (hf : ∀ f ∈ fs, f ∈ c.fields)
    (hd : d.defaults site isStatic fs = .ok d') : d'.Known site := by
  induction fs generalizing d with
  | nil =>
    cases hd
    exact h
  | cons f fs ih =>
    obtain ⟨here, rest⟩ := List.forall_mem_cons.1 hf
    rw [Draft.defaults] at hd
    split at hd
    · exact ih h rest hd
    split at hd
    · exact ih h rest hd
    next kind =>
    simp only [bind_eq_ok, Prod.exists] at hd
    obtain ⟨got, _, hv, hd⟩ := hd
    obtain ⟨code, hcode, rfl, rfl⟩ := value_eq_ok.1 hv
    split at hd
    · cases hd
    have same : f.isStatic = isStatic := by simpa using kind
    have receiver : (if isStatic then d else d.emit (.ldarg 0)).Known site := by
      split
      · exact h
      · exact h.emit trivial
    refine ih ((receiver.emitAll (Scope.valueCode_known (hs _) hcode)).emit ?_) rest hd
    cases isStatic <;> exact ⟨c, f, hc, here, same, rfl⟩

/-- Closing adds returns and branches. -/
theorem Known.finished (h : d.Known site) : ∀ s ∈ d.finished site,
    AllKnown site.registry site.builtins.void site.owner s.code := by
  intro s hm
  obtain ⟨i, -, rfl⟩ := List.mem_map.1 hm
  have closing : AllKnown site.registry site.builtins.void site.owner (d.closing site i) := by
    unfold Draft.closing
    split
    · simp
    · split <;> simp [Knows]
  exact AllKnown.append_iff.2 ⟨h i, closing⟩

theorem Known.start (labels : Nat) (warnings : Array Warning) :
    (Draft.start labels warnings).Known site := by
  intro i
  have empty : (Draft.start labels warnings).codeAt i = [] := by
    cases i <;> rfl
  simp [empty]

end Draft

/-- The code of a compiled method refers to what is declared. -/
theorem Method.compile_known {m m' : Method} {site : Site} {source : MethodSource} {l l' : Nat}
    {w w' : Array Warning} (hs : site.Sees)
    (hc : ∃ c, site.registry.class? site.owner = some c)
    (h : m.compile site source l w = .ok (m', l', w')) {segments : List Segment}
    (hb : m'.body = .segments segments) : ∀ s ∈ segments,
      AllKnown site.registry site.builtins.void site.owner s.code := by
  simp only [Method.compile, bind_eq_ok, Prod.exists, Except.ok.injEq, Prod.mk.injEq] at h
  obtain ⟨_, _, hsrc, rfl, -⟩ := h
  obtain rfl := MethodBody.segments.inj hb
  have start : (Draft.start l w).Known site := Draft.Known.start l w
  cases source with
  | declared decl =>
    simp only [Draft.source, bind_eq_ok] at hsrc
    obtain ⟨d₀, hp, d, hd, hf⟩ := hsrc
    rw [(Draft.finish_eq_ok hf).segments]
    exact ((start.params hp).run hs (Draft.run_block _ hd)).finished
  | initializer isStatic =>
    simp only [Draft.source, bind_eq_ok] at hsrc
    obtain ⟨d, hd, hf⟩ := hsrc
    obtain ⟨c, hc⟩ := hc
    rw [(Draft.finish_eq_ok hf).segments]
    have called : (if isStatic then Draft.start l w
        else ((Draft.start l w).emit (.ldarg 0)).emit .callBaseCtor).Known site := by
      split
      · exact start
      · exact (start.emit (by trivial)).emit (by trivial)
    exact (called.defaults hs hc (by simp [hc]) hd).finished

end ClassAsm
