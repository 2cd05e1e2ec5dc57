import ClassAsm.Proofs.Kinds.Expressions
import ClassAsm.Proofs.Method.Locals

/-! The kinds that a body leaves. Every statement starts and ends with an empty stack in each of its
segments, and finds the kinds that it needs in between. -/

namespace ClassAsm

/-- What is around a method, its result included, has the kinds that the kinding gives it. -/
structure Kinding.Fits (κ : Kinding) (site : Site) : Prop extends
  κ.Serves site.registry site.builtins site.owner site.sig.takesReceiver where
  result : (site.returnsVoid = true ∧ κ.result? = none) ∨
    ∃ k, site.builtins.stackKind? site.sig.returnType = some k ∧ κ.result? = some k

/-- A type that has a kind is not `void`. -/
theorem Kinding.Fits.not_void {κ : Kinding} {site : Site} (h : κ.Fits site) {t : TypeRef}
    {k : StackKind} (hk : site.builtins.stackKind? t = some k) : t.cls ≠ site.builtins.void := by
  intro hv
  rw [Builtins.stackKind?_void h.installed.builtins hv] at hk
  cases hk

theorem Kinding.Fits.result_void {κ : Kinding} {site : Site} (h : κ.Fits site)
    (hv : site.returnsVoid = true) : κ.result? = none := by
  rcases h.result with ⟨-, none'⟩ | ⟨k, hk, -⟩
  · exact none'
  · exact absurd (beq_iff_eq.1 hv) (h.not_void hk)

theorem Kinding.Fits.result_value {κ : Kinding} {site : Site} (h : κ.Fits site) {k : StackKind}
    (hk : site.builtins.stackKind? site.sig.returnType = some k) : κ.result? = some k := by
  rcases h.result with ⟨hv, -⟩ | ⟨k', hk', value⟩
  · exact absurd (beq_iff_eq.1 hv) (h.not_void hk)
  · rw [value, ← hk, hk']

theorem Kinding.Fits.shows {κ : Kinding} {site : Site} (h : κ.Fits site) {l : Locals}
    (hl : κ.Covers site.builtins l) : κ.Shows (site.scope l) := ⟨h.toServes, hl⟩

namespace Draft

variable {κ : Kinding} {site : Site} {d d' : Draft} {i t : Nat}

/-- Every segment replays from an empty stack to an empty one. -/
def Replays (κ : Kinding) (d : Draft) : Prop := ∀ i, κ.Turns (d.codeAt i) [] []

namespace Replays

theorem of_codeAt (h : d.Replays κ) (hc : ∀ i, d'.codeAt i = d.codeAt i) : d'.Replays κ :=
  fun i => by rw [hc]; exact h i

theorem emitAll (h : d.Replays κ) {c : List Instruction} (hc : κ.Turns c [] []) :
    (d.emitAll c).Replays κ := by
  intro i
  rcases @codeAt_emitAll_or d i c with he | he <;> rw [he]
  · exact h i
  · exact (h i).append hc

/-- A branch on what the code before it leaves. -/
theorem branch (h : d.Replays κ) {c : List Instruction} {ks : List StackKind}
    (hc : κ.Turns c [] ks) {make : String → Instruction} (hm : ∀ l, κ.Turns [make l] ks [])
    (t : Nat) : ((d.emitAll c).branch make t).Replays κ := by
  intro i
  rcases @codeAt_branch_or d i t c make with he | ⟨l, he⟩ <;> rw [he]
  · exact h i
  · exact (h i).append (hc.append (hm l))

theorem spawnFresh (h : d.Replays κ) (stem : String) (muted : Bool) :
    (d.spawnFresh stem muted).2.Replays κ := h.of_codeAt fun _ => codeAt_spawnFresh _ _

theorem always (h : d.Replays κ) (t : Nat) : (d.branch .br t).Replays κ :=
  h.branch (.nil κ []) (fun _ => .one fun _ => rfl) t

theorem join (h : d.Replays κ) (t : Nat) : (d.join t).Replays κ := by
  unfold Draft.join
  split
  · exact h.always t
  · exact h

theorem noted (h : d.Replays κ) (e : Expr) : (d.noted site e).Replays κ := by
  rcases @noted_eq_or site d e with he | he <;> rw [he]
  · exact h
  · exact h.of_codeAt fun _ => rfl

theorem binds (h : d.Replays κ) {name : String} {type : TypeRef} {slot : Nat}
    (hb : Binds d name type slot d') : d'.Replays κ := by
  cases hb with
  | known => exact h
  | new => exact h.of_codeAt fun _ => rfl

end Replays

/-! Locals keep their slots and types. -/

/-- The names of one draft mean the same in another. -/
def KeepsLocals (d d' : Draft) : Prop :=
  ∀ n x, d.locals.find? n = some x → d'.locals.find? n = some x

theorem KeepsLocals.of_eq (h : d'.locals = d.locals) : KeepsLocals d d' := fun _ _ hx => h ▸ hx

theorem KeepsLocals.trans {a b c : Draft} (h : KeepsLocals a b) (h' : KeepsLocals b c) :
    KeepsLocals a c := fun n x hx => h' n x (h n x hx)

theorem Binds.keepsLocals {name : String} {type : TypeRef} {slot : Nat}
    (h : Binds d name type slot d') : KeepsLocals d d' := by
  cases h with
  | known => exact .of_eq rfl
  | new new => exact fun _ ⟨_, _⟩ hx => Locals.find?_add_of_some new hx

theorem Assigned.keepsLocals {name : String} {e : Expr} {typeName : Option String}
    (h : Assigned site d name e typeName d') : KeepsLocals d d' := by
  cases h with
  | toStatic | toInstance | through => exact .of_eq (locals_emitAll _)
  | toLocal _ _ _ _ hb => exact hb.keepsLocals.trans (.of_eq (locals_emitAll _))

theorem lasts_keepsLocals (d : Draft) :
    Lasts site fun l => ∀ n x, d.locals.find? n = some x → l.find? n = some x where
  resolved new h _ n x hx := Locals.find?_add_of_some new (h n x hx)
  value new h _ n x hx := Locals.find?_add_of_some new (h n x hx)

theorem Run.keepsLocals {t : Task} (h : Run site t d d') : KeepsLocals d d' :=
  (lasts_keepsLocals d).run h fun _ _ hx => hx

theorem covers_of_keeps {b : Builtins} (h : κ.Covers b d'.locals)
    (hk : KeepsLocals d d') : κ.Covers b d.locals :=
  fun name slot type hn => h name slot type (hk name _ hn)

/-! What statements add. -/

namespace Replays

theorem admits (h : d.Replays κ) {span : Span} {b : Bool} (ha : Admits site span d d' b) :
    d'.Replays κ := h.of_codeAt ha.codeAt

theorem assigned (hκ : κ.Fits site) (h : d.Replays κ) {name : String} {e : Expr}
    {typeName : Option String} (ha : Assigned site d name e typeName d')
    (exact' : (site.scope d.locals).ValueExact e)
    (defaults : (site.scope d.locals).hasReceiver = false → (site.scope d.locals).DefaultsExact)
    (covers : κ.Covers site.builtins d'.locals) : d'.Replays κ := by
  have before : κ.Covers site.builtins d.locals := covers_of_keeps covers ha.keepsLocals
  have value {c : Code} (hc : (site.scope d.locals).valueCode e = .ok c) :
      ∃ k, site.builtins.stackKind? c.type = some k ∧ κ.Turns c.instructions [] [k] :=
    Scope.valueCode_turns (hκ.shows before) defaults exact' hc
  cases ha with
  | @toStatic f c _ hf hs hc ht =>
    obtain ⟨k, hk, turns⟩ := value hc
    obtain ⟨cls, hcls, hm⟩ := Scope.exists_field hf
    obtain ⟨k', hk', field⟩ := hκ.fields cls hcls f hm
    obtain rfl : k = k' := Option.some.inj ((ht ▸ hk).symm.trans hk')
    rw [hs] at field
    exact h.emitAll (turns.append (.stsfld field))
  | @toInstance f c _ hf hs hr hc ht =>
    obtain ⟨k, hk, turns⟩ := value hc
    obtain ⟨cls, hcls, hm⟩ := Scope.exists_field hf
    obtain ⟨k', hk', field⟩ := hκ.fields cls hcls f hm
    obtain rfl : k = k' := Option.some.inj ((ht ▸ hk).symm.trans hk')
    rw [hs] at field
    have receiver : κ.Turns [.ldarg 0] [] [.object] := .ldarg (hκ.receiver hr)
    exact h.emitAll ((turns.on receiver).append (.stfld field))
  | @through slot type _ hl address =>
    obtain ⟨_, hk, -⟩ := before name slot type hl
    rw [Builtins.isAddress_of_stackKind? hk] at address
    cases address
  | @toLocal _ slot c _ _ _ _ hc hb =>
    obtain ⟨k, hk, turns⟩ := value hc
    rw [locals_emitAll] at covers
    obtain ⟨k', hk', local'⟩ := covers name slot c.type hb.find?
    obtain rfl : k = k' := Option.some.inj (hk.symm.trans hk')
    exact (h.binds hb).emitAll (turns.append (.stloc local'))

/-- The condition of an arm, in whichever segment. -/
theorem condition (hκ : κ.Fits site) (h : d.Replays κ) {a : Arm} {segment : Nat}
    (hc : d.condition site a = .ok (segment, d'))
    (exact' : (site.scope d.locals).OperandsExact a.condition)
    (defaults : (site.scope d.locals).hasReceiver = false → (site.scope d.locals).DefaultsExact)
    (covers : κ.Covers site.builtins d.locals) : d'.Replays κ := by
  obtain ⟨c, hv, -, rfl⟩ := condition_eq_ok.1 hc
  obtain ⟨code, nonvoid⟩ := Scope.valueCode_eq_ok.1 hv
  obtain ⟨k, -, turns⟩ := (Scope.code_yields (hκ.shows covers) defaults exact' code).value nonvoid
  exact (h.spawnFresh "Cond" false).branch turns (fun _ => .one fun _ => rfl) _

theorem exprStmt (hκ : κ.Fits site) (h : d.Replays κ) {e : Expr}
    (he : d.exprStmt site e = .ok d') (exact' : (site.scope d.locals).OperandsExact e)
    (defaults : (site.scope d.locals).hasReceiver = false → (site.scope d.locals).DefaultsExact)
    (covers : κ.Covers site.builtins d.locals) : d'.Replays κ := by
  obtain ⟨-, -, rfl⟩ | ⟨c, hc, rfl⟩ := exprStmt_emits he
  · exact h.noted e
  refine (h.noted e).emitAll ?_
  rcases Scope.code_yields (hκ.shows covers) defaults exact' hc with ⟨void, turns⟩ | ⟨k, hk, turns⟩
  · have left : c.type.cls = site.builtins.void := beq_iff_eq.1 void
    rw [if_pos left, List.append_nil]
    exact turns
  · rw [if_neg (hκ.not_void hk)]
    exact turns.append (.pop κ _)

/-- What is returned has the kind of the result. -/
theorem returnStmt (hκ : κ.Fits site) (h : d.Replays κ) {e : Option Expr} {span : Span}
    (hr : d.returnStmt site e span = .ok d')
    (exact' : (site.scope d.locals).StmtExact (.ret e span))
    (defaults : (site.scope d.locals).hasReceiver = false → (site.scope d.locals).DefaultsExact)
    (covers : κ.Covers site.builtins d.locals) : d'.Replays κ := by
  obtain ⟨-, void, rfl⟩ | ⟨value, c, rfl, hc, type, rfl⟩ := returnStmt_emits hr
  · show (d.emitAll [.ret false]).Replays κ
    exact h.emitAll (.retVoid (hκ.result_void void))
  obtain ⟨inside, whole⟩ : (site.scope d.locals).ValueExact value := exact'
  have yields := Scope.code_yields (hκ.shows covers) defaults inside hc
  rw [emitAll_emit]
  cases void : site.returnsVoid with
  | true =>
    have left : c.type.cls = site.builtins.void := type ▸ beq_iff_eq.1 void
    obtain ⟨-, turns⟩ | ⟨k, hk, -⟩ := yields
    · rw [left, bne_self_eq_false]
      exact h.emitAll (turns.append (.retVoid (hκ.result_void void)))
    · exact absurd left (hκ.not_void hk)
  | false =>
    have left : (c.type.cls != site.builtins.void) = true := by
      rw [type]
      exact congrArg (!·) void
    obtain ⟨standIn, compiled⟩ := Scope.exists_standIn hc
    have nonvoid : (site.scope d.locals).isVoid c.type = false := type ▸ void
    obtain ⟨k, hk, turns⟩ := yields.exact hκ.installed.builtins nonvoid compiled whole
    rw [left]
    exact h.emitAll (turns.append (.retValue (hκ.result_value (type ▸ hk))))

/-- Compiling statements keeps the stack empty between them. -/
theorem run (hκ : κ.Fits site) {t : Task} (hr : Run site t d d') :
    AllExact site t d → κ.Covers site.builtins d'.locals → d.Replays κ → d'.Replays κ := by
  induction hr with
  | done | noArms => exact fun _ _ h => h
  | drop ha => exact fun _ _ h => h.admits (Draft.admits ha)
  | next ha hs hrest ihs ihr =>
    intro exact' covers h
    have first := ihs (exact'.leads (.first ha)) (covers_of_keeps covers hrest.keepsLocals)
      (h.admits (Draft.admits ha))
    exact ihr (exact'.leads (.rest ha hs.compile_eq_ok)) covers first
  | expr he =>
    intro exact' covers h
    obtain ⟨inside, defaults⟩ := exact' _ _ .refl
    exact h.exprStmt hκ he inside defaults (covers_of_keeps covers (Run.expr he).keepsLocals)
  | declare hd =>
    intro _ _ h
    obtain ⟨_, _, -, hb⟩ := declare_emits hd
    exact h.binds hb
  | assign ha =>
    intro exact' covers h
    obtain ⟨inside, defaults⟩ := exact' _ _ .refl
    exact h.assigned hκ (assign_emits ha) inside defaults covers
  | ret hret =>
    intro exact' covers h
    obtain ⟨inside, defaults⟩ := exact' _ _ .refl
    exact h.returnStmt hκ hret inside defaults (covers_of_keeps covers (Run.ret hret).keepsLocals)
  | @loop d d₁ d₂ c body span cond after hl hb ih =>
    intro exact' covers h
    obtain ⟨inside, defaults⟩ := exact' _ _ .refl
    have later : κ.Covers site.builtins d₂.locals := by rwa [← locals_join d₂ cond]
    have start : κ.Covers site.builtins d₁.locals := covers_of_keeps later hb.keepsLocals
    have before : κ.Covers site.builtins d.locals := by rwa [← locals_loopStart hl]
    have entered : d₁.Replays κ := by
      obtain ⟨code, hv, -, -, rfl⟩ := loopStart_eq_ok.1 hl
      obtain ⟨hc, nonvoid⟩ := Scope.valueCode_eq_ok.1 hv
      obtain ⟨k, -, turns⟩ :=
        (Scope.code_yields (hκ.shows before) defaults inside hc).value nonvoid
      have segments : d.loopSegments.Replays κ :=
        (h.spawnFresh "Cond" false).spawnFresh "AfterCond" false
      have head : d.loopHead.Replays κ := (segments.always _).of_codeAt fun _ => rfl
      exact head.branch turns (fun _ => .one fun _ => rfl) _
    have body := ih (exact'.leads (.body hl)) later entered
    exact (body.join cond).of_codeAt fun _ => rfl
  | @cond d d₁ d₂ d₃ first rest otherwise span after segments hc ho ha iho iha =>
    intro exact' covers h
    obtain ⟨inside, defaults⟩ := exact' _ _ .refl
    have joined : κ.Covers site.builtins (d₂.join after).locals :=
      covers_of_keeps covers ha.keepsLocals
    have middle : κ.Covers site.builtins d₂.locals := by rwa [← locals_join d₂ after]
    have start : κ.Covers site.builtins d₁.locals := covers_of_keeps middle ho.keepsLocals
    have before : κ.Covers site.builtins d.locals := by rwa [← locals_condStart hc]
    have entered : d₁.Replays κ := by
      refine condStart_invariant (P := Replays κ) hc (h.spawnFresh "AfterCond" false) ?_
      intro a ha x y segment same hx tested
      rw [← same] at inside defaults before
      exact hx.condition hκ tested (inside a ha) defaults before
    have otherwise' := iho (exact'.leads (.otherwise hc)) middle entered
    have arms := iha (exact'.leads (.arms hc ho.compile_eq_ok)) covers (otherwise'.join after)
    exact arms.of_codeAt fun _ => rfl
  | @arm d d₁ d₂ after segment a xs hb ht ih iht =>
    intro exact' covers h
    have joined : κ.Covers site.builtins (d₁.join after).locals :=
      covers_of_keeps covers ht.keepsLocals
    have middle : κ.Covers site.builtins d₁.locals := by rwa [← locals_join d₁ after]
    have body := ih (exact'.leads .arm) middle (h.of_codeAt fun _ => rfl)
    exact iht (exact'.leads (.nextArms hb.compile_eq_ok)) covers (body.join after)

end Replays

end Draft
end ClassAsm
