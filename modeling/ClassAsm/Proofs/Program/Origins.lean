import ClassAsm.Proofs.Code.Origins
import ClassAsm.Proofs.Program.Slots
import ClassAsm.Proofs.Program.Values

/-! Where the instructions of a method come from. A method starts with its arguments, and the rest is
the code of its expressions, the receiver where a field is stored, and what concerns neither arguments
nor calls nor floats. So a property that these have is one of all instructions: a step of a body only
adds instructions with the property, and so does a whole body. -/

namespace ClassAsm

open Draft

theorem Draft.Jump.plain {make : String → Instruction} {pops : Nat} (h : Jump make pops)
    (label : String) : (make label).isPlain = true := by
  cases h <;> rfl

theorem Site.not_omits (site : Site) {s : Stmt} (other : ∀ e, s ≠ .expr e) : ¬ site.Omits s := by
  rintro ⟨e, same, -⟩
  exact other e same

namespace Job

/-- Where an instruction of a method comes from. -/
inductive Origin (j : Job) : Instruction → Prop where
  | argument {i : Instruction} (mem : i ∈ j.prologue) : Origin j i
  | value {l : Locals} {e : Expr} {c : Code} {i : Instruction} (has : j.Has l e)
      (hc : (j.site.scope l).code e = .ok c) (mem : i ∈ c.instructions) : Origin j i
  | receiver (h : j.site.sig.takesReceiver = true) : Origin j (.ldarg 0)
  | inner {i : Instruction} (h : i.isInner = true) : Origin j i

/-- A property of whatever a method can be made of. -/
structure Covers (j : Job) (P : Instruction → Prop) : Prop where
  argument : ∀ i ∈ j.prologue, P i
  value : ∀ {l e c}, j.Has l e → (j.site.scope l).code e = .ok c → ∀ i ∈ c.instructions, P i
  receiver : j.site.sig.takesReceiver = true → P (.ldarg 0)
  plain : ∀ {i}, i.isPlain = true → P i

theorem covers_origin (j : Job) : j.Covers j.Origin where
  argument := fun _ => .argument
  value := fun has hc _ => .value has hc
  receiver := .receiver
  plain := fun h => .inner (Instruction.isInner_of_isPlain h)

/-- Whatever has been added has the property. -/
def Adds (P : Instruction → Prop) (d d' : Draft) : Prop :=
  ∀ k, ∀ i ∈ d'.codeAt k, i ∈ d.codeAt k ∨ P i

variable {j : Job} {P : Instruction → Prop} {d d' x : Draft} {t : Task} {s : Stmt} {e : Expr} {c : Code}
  {code : List Instruction}

/-- A statement that is not left out has its expressions. -/
theorem Covers.stmt (covers : j.Covers P) (hv : j.Visits (.one s) x) (mem : e ∈ s.values)
    (kept : ¬ j.site.Omits s) (hc : (j.site.scope x.locals).code e = .ok c) :
    ∀ i ∈ c.instructions, P i :=
  covers.value (.stmt hv mem kept) hc

theorem Covers.stmt_value (covers : j.Covers P) (hv : j.Visits (.one s) x) (mem : e ∈ s.values)
    (kept : ¬ j.site.Omits s) (hc : (j.site.scope x.locals).valueCode e = .ok c) :
    ∀ i ∈ c.instructions, P i :=
  covers.stmt hv mem kept (Scope.valueCode_eq_ok.1 hc).1

namespace Adds

theorem refl (P : Instruction → Prop) (d : Draft) : Adds P d d := fun _ _ => .inl

theorem trans {a b c : Draft} (h : Adds P a b) (h' : Adds P b c) : Adds P a c :=
  fun k i hi => (h' k i hi).elim (h k i) .inr

theorem of_same (hc : ∀ k, d'.codeAt k = d.codeAt k) : Adds P d d' :=
  fun k _ hi => .inl (hc k ▸ hi)

theorem of_code (h : ∀ i ∈ code, P i)
    (hc : ∀ k, d'.codeAt k = d.codeAt k ∨ d'.codeAt k = d.codeAt k ++ code) : Adds P d d' := by
  intro k i hi
  rcases hc k with same | more
  · exact .inl (same ▸ hi)
  · rw [more] at hi
    exact (List.mem_append.1 hi).imp_right (h i)

theorem emitAll (h : ∀ i ∈ code, P i) : Adds P d (d.emitAll code) :=
  of_code h fun _ => codeAt_emitAll_or code

theorem emit {i : Instruction} (h : P i) : Adds P d (d.emit i) :=
  @emitAll P d [i] fun _ hi => List.mem_singleton.1 hi ▸ h

theorem branch {make : String → Instruction} {pops : Nat} (hj : Jump make pops)
    (covers : j.Covers P) (h : ∀ i ∈ code, P i) (t : Nat) :
    Adds P d ((d.emitAll code).branch make t) := by
  intro k i hi
  rcases codeAt_branch_or code make with same | ⟨label, more⟩
  · exact .inl (same ▸ hi)
  · rw [more] at hi
    refine (List.mem_append.1 hi).imp_right fun hi => ?_
    rcases List.mem_append.1 hi with hi | hi
    · exact h i hi
    · exact List.mem_singleton.1 hi ▸ covers.plain (hj.plain label)

theorem always (covers : j.Covers P) (d : Draft) (t : Nat) :
    Adds P d (d.branch .br t) := by
  have nothing : ∀ i ∈ [], P i := List.forall_mem_nil _
  exact branch .always covers nothing t

theorem spawnFresh (P : Instruction → Prop) (d : Draft) (stem : String) (muted : Bool) :
    Adds P d (d.spawnFresh stem muted).2 := of_same fun _ => codeAt_spawnFresh _ _

theorem switchTo (P : Instruction → Prop) (d : Draft) (t : Nat) : Adds P d (d.switchTo t) := of_same fun _ => rfl

theorem join (covers : j.Covers P) (d : Draft) (t : Nat) : Adds P d (d.join t) := by
  unfold Draft.join
  split
  · exact always covers d t
  · exact refl P d

theorem noted (P : Instruction → Prop) (site : Site) (d : Draft) (e : Expr) :
    Adds P d (d.noted site e) := by
  rcases @noted_eq_or site d e with he | he <;> rw [he]
  · exact refl P d
  · exact of_same fun _ => rfl

theorem binds {name : String} {type : TypeRef} {slot : Nat} (hb : Binds d name type slot d') :
    Adds P d d' := by
  cases hb with
  | known => exact refl P d
  | new => exact of_same fun _ => rfl

/-- An assignment stores its value to a field, through an address, or to a local. -/
theorem assigned (covers : j.Covers P) {name : String} {nameSpan span : Span} {typeName : Option String}
    (hv : j.Visits (.one (.assign name nameSpan typeName e span)) d)
    (hok : d.assign j.site name nameSpan typeName e = .ok d') : Adds P d d' := by
  have value {c : Code} (hc : (j.site.scope d.locals).valueCode e = .ok c) :
      ∀ i ∈ c.instructions, P i :=
    covers.stmt_value hv (List.mem_singleton_self e) (j.site.not_omits (by simp)) hc
  have last {z : Instruction} (h : z.isPlain = true) : ∀ i ∈ [z], P i :=
    fun _ hi => List.mem_singleton.1 hi ▸ covers.plain h
  cases assign_emits hok with
  | toStatic _ _ _ hc => exact emitAll (List.forall_mem_append.2 ⟨value hc, last rfl⟩)
  | toInstance _ _ _ hr hc =>
    have first : ∀ i ∈ [.ldarg 0], P i :=
      fun _ hi => List.mem_singleton.1 hi ▸ covers.receiver hr
    exact emitAll (List.forall_mem_append.2
      ⟨List.forall_mem_append.2 ⟨first, value hc⟩, last rfl⟩)
  | through _ _ hc =>
    exact emitAll (List.forall_mem_append.2
      ⟨List.forall_mem_append.2 ⟨last rfl, value hc⟩, last rfl⟩)
  | toLocal _ _ _ hc hb =>
    exact (binds hb).trans (emitAll (List.forall_mem_append.2 ⟨value hc, last rfl⟩))

theorem condition (covers : j.Covers P) {a : Arm} {segment : Nat} (hv : j.Visits (.one s) x)
    (hl : d.locals = x.locals) (hm : a.condition ∈ s.values) (kept : ¬ j.site.Omits s)
    (h : d.condition j.site a = .ok (segment, d')) : Adds P d d' := by
  obtain ⟨c, hc, -, rfl⟩ := condition_eq_ok.1 h
  have value := covers.stmt_value hv hm kept (hl ▸ hc)
  exact (spawnFresh P d "Cond" false).trans (branch .ifTrue covers value _)

/-- Every task adds instructions with an origin only. -/
theorem run (covers : j.Covers P) (hr : Draft.Run j.site t d d') (hv : j.Visits t d) : Adds P d d' := by
  induction hr with
  | done | noArms => exact refl P _
  | drop ha => exact of_same (Draft.admits ha).codeAt
  | next ha hs _ ihs ihr =>
    have first := ihs (hv.leads (.first ha))
    have rest := ihr (hv.leads (.rest ha hs.compile_eq_ok))
    exact ((of_same (Draft.admits ha).codeAt).trans first).trans rest
  | @expr d _ e he =>
    by_cases omit' : j.site.Omits (.expr e)
    · obtain ⟨_, same, call, trim⟩ := omit'
      cases same
      obtain rfl : d.noted j.site e = _ := by
        simpa [Draft.exprStmt, Draft.noted, call, trim] using he
      exact noted P j.site d e
    obtain ⟨call, trim, -⟩ | ⟨c, hc, rfl⟩ := exprStmt_emits he
    · exact absurd ⟨e, rfl, call, trim⟩ omit'
    · have value := covers.stmt hv (List.mem_singleton_self e) omit' hc
      refine (noted P j.site d e).trans (emitAll (List.forall_mem_append.2 ⟨value, fun i hi => ?_⟩))
      split at hi
      · cases hi
      · exact List.mem_singleton.1 hi ▸ covers.plain rfl
  | declare hd =>
    obtain ⟨type, slot, -, hb⟩ := declare_emits hd
    exact binds hb
  | assign ha => exact assigned covers hv ha
  | ret hret =>
    obtain ⟨-, -, rfl⟩ | ⟨value, c, rfl, hc, -, rfl⟩ := returnStmt_emits hret
    · exact emit (covers.plain rfl)
    · have value := covers.stmt hv (List.mem_singleton_self value) (j.site.not_omits (by simp)) hc
      exact (emitAll value).trans (emit (covers.plain rfl))
  | @loop d _ _ e body span _ _ hl hb ih =>
    have visited := hv.leads (.body hl)
    obtain ⟨c, hc, rfl, rfl, rfl⟩ := loopStart_eq_ok.1 hl
    have head : Adds P d d.loopHead :=
      (((spawnFresh P d _ _).trans (spawnFresh P _ _ _)).trans (always covers _ _)).trans
        (switchTo P _ _)
    have value := covers.stmt_value hv (List.mem_singleton_self e) (j.site.not_omits (by simp)) hc
    exact (((head.trans (branch .ifFalse covers value _)).trans (ih visited)).trans (join covers _ _)).trans
      (switchTo P _ _)
  | @cond d _ _ _ first rest otherwise span _ _ hc ho _ iho iha =>
    have visited := hv.leads (.otherwise hc)
    have armed := hv.leads (.arms hc ho.compile_eq_ok)
    have start := condStart_invariant (P := Adds P d) hc (spawnFresh P d "AfterCond" false)
      fun a ha _ _ _ same hx tested => hx.trans
        (condition covers hv same (List.mem_map_of_mem ha) (j.site.not_omits (by simp)) tested)
    exact (((start.trans (iho visited)).trans (join covers _ _)).trans (iha armed)).trans
      (switchTo P _ _)
  | @arm d _ _ after segment a xs h _ ih iht =>
    have body := ih (hv.leads .arm)
    have rest := iht (hv.leads (.nextArms h.compile_eq_ok))
    exact (((switchTo P d segment).trans body).trans (join covers _ _)).trans rest

end Adds

/-! Whole methods. -/

variable {m : Method} {labels : Nat} {warnings : Array Warning}

theorem plain_closing {site : Site} {k : Nat} {i : Instruction} (h : i ∈ d.closing site k) :
    i.isPlain = true := by
  unfold closing at h
  split at h
  · cases h
  split at h <;> exact List.mem_singleton.1 h ▸ rfl

theorem Initializes.covered {isStatic : Bool} {stores : List (Field × Code)}
    (h : j.Initializes isStatic stores m) (covers : j.Covers P)
    (source : j.source = .initializer isStatic)
    (receiver : isStatic = false → j.site.sig.takesReceiver = true) :
    ∀ s ∈ m.segments, ∀ i ∈ s.code, P i := by
  rw [h.segments]
  intro s hs i hi
  obtain rfl := List.mem_singleton.1 hs
  rw [List.mem_append, List.mem_append] at hi
  rcases hi with (hi | hi) | hi
  · cases isStatic with
    | true => cases hi
    | false =>
      simp only [basing, Bool.false_eq_true, if_false, List.mem_cons, List.not_mem_nil, or_false] at hi
      rcases hi with rfl | rfl
      · exact covers.receiver (receiver rfl)
      · exact covers.plain rfl
  · obtain ⟨x, hx, hi⟩ := List.mem_flatMap.1 hi
    have field := List.mem_map_of_mem (f := Prod.fst) hx
    rw [h.all.fields] at field
    obtain ⟨mem, kind⟩ := List.mem_filter.1 field
    obtain rfl : x.1.isStatic = isStatic := beq_iff_eq.1 (Bool.and_eq_true_iff.1 kind).1
    obtain ⟨value, stored, hc, -⟩ := h.all.code x hx
    cases cls : j.site.registry.class? j.site.owner with
    | none =>
      rw [cls] at mem
      cases mem
    | some c =>
      rw [cls] at mem
      have has : j.Has {} value := .default cls mem source stored
      have inside : ∀ i ∈ x.2.instructions, P i := covers.value has (Scope.valueCode_eq_ok.1 hc).1
      unfold storing at hi
      split at hi
      · rcases List.mem_append.1 hi with hi | hi
        · exact inside i hi
        · exact List.mem_singleton.1 hi ▸ covers.plain rfl
      · next kind =>
        rw [List.mem_append, List.mem_append, List.mem_singleton, List.mem_singleton] at hi
        rcases hi with (rfl | hi) | rfl
        · exact covers.receiver (receiver (by simpa using kind))
        · exact inside i hi
        · exact covers.plain rfl
  · exact List.mem_singleton.1 hi ▸ covers.plain rfl

/-- Every instruction of a method that is compiled has the property. -/
theorem covered (hs : j.site.registry.Installed j.site.builtins) (linked : j.IsLinked)
    (receiver : j.source = .initializer false → j.site.sig.takesReceiver = true) (covers : j.Covers P)
    (h : j.compile = .ok (m, labels, warnings)) : ∀ s ∈ m.segments, ∀ i ∈ s.code, P i := by
  cases source : j.source with
  | initializer isStatic =>
    obtain ⟨stores, initializes⟩ := exists_initializes hs source h
    exact initializes.covered covers source fun same => receiver (same ▸ source)
  | declared decl =>
    simp only [compile, Method.compile, bind_eq_ok, Prod.exists, Except.ok.injEq, Prod.mk.injEq, source,
      Draft.source] at h
    obtain ⟨segments, d', ⟨d₀, hp, d, hb, hf⟩, rfl, -⟩ := h
    have opened := (opening_eq_params source).trans hp
    have visits : j.Visits (.block decl.body.stmts) d₀ := ⟨d₀, opened, by rw [stmts, source]⟩
    have adds := Adds.run covers (run_block _ hb) visits
    intro s hm i hi
    change s ∈ segments at hm
    rw [(finish_eq_ok hf).segments, finished] at hm
    obtain ⟨k, -, rfl⟩ := List.mem_map.1 hm
    rcases List.mem_append.1 hi with hi | hi
    · rcases adds k i hi with first | added
      · rw [(opens linked opened).code] at first
        split at first
        · exact covers.argument i first
        · cases first
      · exact added
    · exact covers.plain (plain_closing hi)

/-- Every instruction of a method that is compiled has an origin. -/
theorem exists_origin (hs : j.site.registry.Installed j.site.builtins) (linked : j.IsLinked)
    (receiver : j.source = .initializer false → j.site.sig.takesReceiver = true)
    (h : j.compile = .ok (m, labels, warnings)) : ∀ s ∈ m.segments, ∀ i ∈ s.code, j.Origin i :=
  covered hs linked receiver j.covers_origin h

end Job
end ClassAsm
