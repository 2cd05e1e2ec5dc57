import ClassAsm.Proofs.Trimming.Bodies
import ClassAsm.Proofs.Trimming.Twin

/-! Methods that do the same. Both drafts are finished in the same way, so the code of a live segment
still agrees with that of its partner, and branches from live code lead to live segments only.
Arguments and defaults come before the body in both drafts alike. A method that passes the check
compiles with trimming as well, and does the same on every host. -/

namespace ClassAsm

theorem deed?_of_slot?_eq_none {i : Instruction} (h : i.slot? = none)
    (locals : List (String × TypeRef)) : i.deed? locals = some (.other i) := by
  cases i <;> first | rfl | cases h

theorem Renames.deed?_ne_none {l l' : Locals} {i i' : Instruction} (h : Renames l l' i i') :
    i.deed? l.toList ≠ none := by
  cases h with
  | slot ha h =>
    have found := Locals.getElem?_toList.2 h
    cases ha <;> simp [Instruction.deed?, found]
  | same hs =>
    rw [deed?_of_slot?_eq_none hs]
    exact Option.some_ne_none _

theorem Renames.matches {m m' : Method} {Joined : String → String → Prop} {l l' : Locals}
    {i i' : Instruction} (h : Renames l l' i i') (hl : m.locals = l.toList)
    (hl' : m'.locals = l'.toList) : Matches m m' Joined i i' := by
  cases h with
  | slot ha h h' =>
    have found := Locals.getElem?_toList.2 h
    have found' := Locals.getElem?_toList.2 h'
    cases ha <;> exact .deed rfl rfl rfl (by simp only [Instruction.deed?, hl, hl', found, found'])
  | same hs hc =>
    exact .deed hc hc rfl (by rw [deed?_of_slot?_eq_none hs, deed?_of_slot?_eq_none hs])

namespace Draft

variable {o : Options} {site site' : Site} {P : Nat → Nat → Prop} {d d' e : Draft} {span : Span}

/-! Finishing succeeds. -/

/-- A segment in use from which control could leave at the end only ends a method without a
result. -/
def Returns (site : Site) (d : Draft) : Prop :=
  ∀ i ∈ d.kept, (d.segment i).isTerminated = false →
    site.returnsVoid = true ∨ (d.segment i).isLive = false

theorem closeSegment_ok (span : Span) {i : Nat} (hi : i < d.segments.size)
    (hr : d.Returns site) (e : Draft) (same : e.segment i = d.segment i) : ∃ e', closeSegment site span e i = .ok e' := by
  unfold closeSegment
  rw [same]
  simp only
  split
  · exact ⟨_, rfl⟩
  next inUse =>
  simp only [Bool.or_eq_true, not_or, Bool.not_eq_true] at inUse
  split
  · exact ⟨_, rfl⟩
  next value =>
  have dark := (hr i (mem_kept.2 ⟨hi, inUse.2⟩) inUse.1).resolve_left value
  rw [dark]
  exact ⟨_, rfl⟩

theorem closeAll_ok {S : List Nat} {is : List Nat} (h : Closes site S d e) (hr : d.Returns site)
    (hn : (S ++ is).Nodup) (hlt : ∀ i ∈ is, i < d.segments.size) :
    ∃ e', is.foldlM (closeSegment site span) e = .ok e' := by
  induction is generalizing S e with
  | nil => exact ⟨e, rfl⟩
  | cons i is ih =>
    have apart : i ∉ S := fun hi => (List.nodup_append.1 hn).2.2 i hi i (by simp) rfl
    have lt := hlt i (by simp)
    obtain ⟨e₁, hc⟩ := closeSegment_ok span lt hr e (h.other i apart)
    have one := closeSegment_eq_ok (by rw [h.size]; exact lt) hc
    rw [List.append_cons] at hn
    obtain ⟨e', rest⟩ := ih (h.snoc one apart) hn fun j hj => hlt j (List.mem_cons_of_mem _ hj)
    exact ⟨e', foldlM_cons_eq_ok.2 ⟨e₁, hc, rest⟩⟩

theorem finish_ok (site : Site) (span : Span) (hr : d.Returns site) :
    ∃ segments e, d.finish site span = .ok (segments, e) ∧ Finishes site d e segments := by
  have closes : ∃ e, (List.range d.segments.size).foldlM (closeSegment site span) d = .ok e :=
    closeAll_ok (S := []) (Closes.refl d) hr List.nodup_range fun _ => List.mem_range.1
  obtain ⟨e, hc⟩ := closes
  have done : ∃ r, d.finish site span = .ok r := by
    unfold finish
    rw [hc]
    exact ⟨_, rfl⟩
  obtain ⟨⟨segments, e⟩, done⟩ := done
  exact ⟨segments, e, done, finish_eq_ok done⟩

/-! The trimmed draft. -/

theorem Twin.closing_eq (ht : Twin o P d d') {i k : Nat} (hp : P i k) (hk : i ∈ d.kept)
    (hk' : k ∈ d'.kept) (run : (d.segment i).isLive = true) (hr : d.Returns site)
    (void : site'.returnsVoid = site.returnsVoid) :
    (d.closing site i = [] ∨ d.closing site i = [.ret false]) ∧
      d'.closing site' k = d.closing site i := by
  cases ended : (d.segment i).isTerminated with
  | true =>
    have ended' := (ht.ended i k hp).trans ended
    rw [closing, closing, ended, ended', Bool.true_or, Bool.true_or, if_pos rfl, if_pos rfl]
    exact ⟨.inl rfl, rfl⟩
  | false =>
    have returns : site.returnsVoid = true := (hr i hk ended).resolve_right (by simp [run])
    rw [closing_of_open _ hk ended, closing_of_open _ hk' ((ht.ended i k hp).trans ended), void,
      if_pos returns, returns]
    exact ⟨.inr rfl, rfl⟩

theorem Twin.returns (ht : Twin o P d d') (fair : Fair site d) (hr : d.Returns site)
    (void : site'.returnsVoid = site.returnsVoid) : d'.Returns site' := by
  obtain ⟨_, lit⟩ := fair.lit
  obtain ⟨_, shaped⟩ := fair.shaped
  intro k hk isOpen
  obtain ⟨i, hp⟩ := ht.total k (mem_kept.1 hk).1
  rw [ht.live i k hp, void]
  cases run : (d.segment i).isLive with
  | false => exact .inr rfl
  | true =>
    have kept := lit.mem_kept_of_isLive shaped fair.inRange run
    rw [ht.ended i k hp] at isOpen
    exact .inl ((hr i kept isOpen).resolve_right (by simp [run]))

/-- Names of live segments that belong together. -/
def Joined (P : Nat → Nat → Prop) (d d' : Draft) (l l' : String) : Prop :=
  ∃ i k, P i k ∧ (d.segment i).isLive = true ∧ (d.segment i).name = l ∧ (d'.segment k).name = l'

/-- Methods that are finished from twin drafts do the same. -/
theorem Twin.mirrors (ht : Twin o P d d') (fair : Fair site d) (fair' : Fair site' d')
    (hr : d.Returns site) (void : site'.returnsVoid = site.returnsVoid) {m m' : Method}
    (hm : m.body = .segments (d.finished site)) (hm' : m'.body = .segments (d'.finished site'))
    (hl : m.locals = d.locals.toList) (hl' : m'.locals = d'.locals.toList) :
    Mirrors (o.trimUselessCode = true) m m' (Joined P d d') := by
  obtain ⟨_, lit⟩ := fair.lit
  obtain ⟨_, shaped⟩ := fair.shaped
  obtain ⟨_, lit'⟩ := fair'.lit
  obtain ⟨_, shaped'⟩ := fair'.shaped
  refine ⟨⟨0, 0, ht.first, lit.first, shaped.first, shaped'.first⟩, ?_⟩
  rintro _ _ ⟨i, k, hp, run, rfl, rfl⟩
  have kept := lit.mem_kept_of_isLive shaped fair.inRange run
  have kept' := lit'.mem_kept_of_isLive shaped' fair'.inRange ((ht.live i k hp).trans run)
  rw [Method.segments, Method.segments, hm, hm']
  refine ⟨_, _, shaped.find?_finished site kept, shaped'.find?_finished site' kept', ?_⟩
  obtain ⟨last, same⟩ := ht.closing_eq hp kept kept' run hr void
  refine Weaves.append ?_ ?_
  · refine (ht.code i k hp run).imp (fun x hx x' alike => ?_) fun b skips => ?_
    · cases alike with
      | renames h => exact h.matches hl hl'
      | ret hasValue => exact .ret hasValue
      | @jump _ _ hj j n hp =>
        -- a branch in live code leads to a live segment, which is the one it names
        obtain ⟨t, lt, name, live⟩ := lit.flows i run _ hx _ (hj.target? _)
        obtain rfl := shaped.distinct t lt j (ht.lt j n hp).1 name
        exact .jump hj ⟨t, n, hp, live, rfl, rfl⟩
    · refine ⟨skips.trims, ⟨skips.quiet, fun x hx => ?_⟩, skips.moves⟩
      rw [hl]
      exact (List.forall₂_same.1 skips.known x hx).deed?_ne_none
  · rw [same]
    rcases last with last | last <;> rw [last]
    · exact .nil
    · exact .cons (.ret false) .nil

end Draft

/-! Whole methods. -/

theorem Kin.refl (o : Options) (l : Locals) : Kin o l.names l l := by
  refine ⟨fun _ => rfl, fun _ n hn => ?_, fun _ n hn => ?_⟩
  · obtain ⟨⟨slot, type⟩, found⟩ := Option.ne_none_iff_exists'.1 (Locals.mem_names.1 hn)
    exact ⟨slot, slot, type, found, found⟩
  · by_contra found
    exact hn (Locals.mem_names.2 found)

/-- The method has the same signature and does the same on every host. -/
structure Method.Resembles (skips : Prop) (m m' : Method) : Prop where
  sig : m'.sig = m.sig
  span : m'.span = m.span
  isEntryPoint : m'.isEntryPoint = m.isEntryPoint
  body : m' = m ∨ ∃ code code', m.body = .segments code ∧ m'.body = .segments code'
  keeps : ∀ {V W E : Type} (h : Host V W E) (w : W),
    h.Keeps skips m m' (Host.start m w) (Host.start m' w)

theorem Method.Resembles.refl (skips : Prop) (m : Method) : m.Resembles skips m where
  sig := rfl
  span := rfl
  isEntryPoint := rfl
  body := .inl rfl
  keeps _ _ := ⟨fun _ => .inl, fun _ => .inl, fun _ => id, fun _ => .inl⟩

namespace Draft

variable {o : Options} {site : Site} {P : Nat → Nat → Prop} {names : List String}
  {d d' e : Draft}

/-! Before the body. -/

/-- The first segments belong together. -/
def firstPair (i k : Nat) : Prop := i = 0 ∧ k = 0

theorem Twin.start (o : Options) (labels labels' : Nat) (warnings warnings' : Array Warning) :
    Twin o firstPair (start labels warnings) (start labels' warnings') where
  first := ⟨rfl, rfl⟩
  lt := by
    rintro _ _ ⟨rfl, rfl⟩
    exact ⟨Nat.zero_lt_one, Nat.zero_lt_one⟩
  unique := by
    rintro _ _ _ _ ⟨rfl, rfl⟩ ⟨rfl, rfl⟩
    exact Iff.rfl
  total k hk := ⟨0, rfl, Nat.lt_one_iff.1 hk⟩
  live := by
    rintro _ _ ⟨rfl, rfl⟩
    rfl
  muted := by
    rintro _ _ ⟨rfl, rfl⟩
    rfl
  ended := by
    rintro _ _ ⟨rfl, rfl⟩
    rfl
  code := by
    rintro _ _ ⟨rfl, rfl⟩ -
    exact .nil

theorem Synced.start (o : Options) (site : Site) (labels labels' : Nat)
    (warnings warnings' : Array Warning) :
    Synced o site firstPair (start labels warnings).locals.names (start labels warnings)
      (start labels' warnings') where
  twin := .start o labels labels' warnings warnings'
  kin := .refl o _
  fair := .start site labels warnings
  fair' := .start (site.under o) labels' warnings'
  sync := ⟨rfl, rfl⟩

theorem params_roomy {n : Nat} {ps : List (Param × TypeRef)} (hr : d.Roomy)
    (h : d.params site n ps = .ok e) : e.Roomy := by
  induction ps generalizing d n with
  | nil =>
    cases h
    exact hr
  | cons p ps ih =>
    obtain ⟨new, room, h⟩ := params_cons_eq_ok h
    refine ih (Roomy.of_locals ?_ (locals_emitAll _)) h
    rw [Roomy, addLocal, Locals.size_add new]
    exact room

theorem Synced.params (h : Synced o site P d.locals.names d d') (same : d'.locals = d.locals)
    (ho : d.fallsThrough = true) {n : Nat} {ps : List (Param × TypeRef)}
    (hp : d.params site n ps = .ok e) :
    ∃ e', d'.params (site.under o) n ps = .ok e' ∧ Synced o site P e.locals.names e e' := by
  induction ps generalizing d d' n with
  | nil =>
    cases hp
    exact ⟨d', rfl, h⟩
  | cons p ps ih =>
    obtain ⟨p, type⟩ := p
    obtain ⟨new, room, hp⟩ := params_cons_eq_ok hp
    have new' : d'.locals.find? p.name = none := same ▸ new
    have same₁ : (d'.addLocal p.name type).locals = (d.addLocal p.name type).locals := by
      simp only [addLocal, same]
    have bound : Synced o site P (d.addLocal p.name type).locals.names (d.addLocal p.name type)
        (d'.addLocal p.name type) :=
      h.quiet (step_addLocal h.fair.inRange _ _) (step_addLocal h.fair'.inRange _ _) rfl rfl rfl rfl
        (by rw [same₁]; exact .refl o _)
    set copy : List Instruction := [.ldarg (argumentSlot site n), .stloc d.locals.size]
    have straight := (copy_leaves (argumentSlot site n) d.locals.size False).straight
    have found : (d.addLocal p.name type).locals.find? p.name = some (d.locals.size, type) :=
      Locals.find?_add new
    have copied := bound.piece ho straight straight
      (.cons (.same rfl rfl) (.cons (.slot .store found (same₁ ▸ found)) .nil))
    have ho₁ : ((d.addLocal p.name type).emitAll copy).fallsThrough = true :=
      fallsThrough_emitAll bound.fair.inRange straight ho
    obtain ⟨e', hp', synced⟩ := ih (by rw [locals_emitAll]; exact copied)
      (by rw [locals_emitAll, locals_emitAll]; exact same₁) ho₁ hp
    refine ⟨e', ?_, synced⟩
    have notFull : ¬ d'.locals.isFull = true := by
      rw [same, Locals.isFull, decide_eq_true_eq, not_le]
      exact room
    rw [params_cons_of_new new', if_neg notFull, same]
    exact hp'

theorem basing_straight (isStatic : Bool) : Straight (basing isStatic) := by
  cases isStatic with
  | true => exact Straight.nil
  | false => exact (Straight.one (i := .ldarg 0) rfl).append (Straight.one rfl)

theorem basing_renamed (isStatic : Bool) (l l' : Locals) :
    Renamed l l' (basing isStatic) (basing isStatic) := by
  cases isStatic with
  | true => exact .nil
  | false => exact .cons (.same rfl rfl) (.cons (.same rfl rfl) .nil)

theorem storing_straight (site : Site) (f : Field) {code : List Instruction} (h : Straight code) :
    Straight (storing site f code) := by
  unfold storing
  split
  · exact h.append (Straight.one rfl)
  · exact h.between rfl rfl

theorem storing_renamed (site : Site) (f : Field) {l l' : Locals} {code code' : List Instruction}
    (h : Renamed l l' code code') : Renamed l l' (storing site f code) (storing site f code') := by
  unfold storing
  split
  · exact h.append (.cons (.same rfl rfl) .nil)
  · exact h.between (.same rfl rfl) (.same rfl rfl)

variable (hs : site.registry.Installed site.builtins)

include hs

theorem Synced.defaults (h : Synced o site P names d d') (hl : d.locals = {})
    (ho : d.fallsThrough = true) {isStatic : Bool} {fs : List Field}
    (hd : d.defaults site isStatic fs = .ok e) :
    ∃ e', d'.defaults (site.under o) isStatic fs = .ok e' ∧ Synced o site P names e e' := by
  induction fs generalizing d d' with
  | nil =>
    cases hd
    exact ⟨d', rfl, h⟩
  | cons f fs ih =>
    by_cases other : f.default = none ∨ f.isStatic ≠ isStatic
    · rw [defaults_cons_of_other fs other] at hd ⊢
      exact ih h hl ho hd
    simp only [not_or, not_not] at other
    obtain ⟨default, rfl⟩ := other
    obtain ⟨value, default⟩ := Option.ne_none_iff_exists'.1 default
    obtain ⟨c, hc, type, hd⟩ := (defaults_cons_eq_ok default).1 hd
    have spared : d.spares o site names value = true := by
      have none (n) : d.locals.find? n = none := by
        rw [hl]
        rfl
      simp [spares, none]
    obtain ⟨c', hc', type', straight, straight', renamed⟩ := h.valueCode hs hc spared
    have stored := h.piece ho (storing_straight site f straight) (storing_straight site f straight')
      (storing_renamed site f renamed)
    obtain ⟨e', hd', synced⟩ := ih stored ((locals_emitAll _).trans hl)
      (fallsThrough_emitAll h.fair.inRange (storing_straight site f straight) ho) hd
    exact ⟨e', (defaults_cons_eq_ok default).2 ⟨c', hc', type'.trans type, hd'⟩, synced⟩

end Draft

/-! Jobs. -/

namespace Draft

variable {o : Options} {site : Site} {P : Nat → Nat → Prop} {names : List String}
  {d d' e : Draft}

/-- What is left to do for a method when both drafts of its body are there. -/
theorem Both.finish (both : Both o site P names d d') {span : Span} {segments : List Segment}
    (hf : d.finish site span = .ok (segments, e)) (m : Method) (source : MethodSource) :
    ∃ segments' e', d'.finish (site.under o) span = .ok (segments', e') ∧
      (m.compiled source segments e).Resembles (o.trimUselessCode = true)
        (m.compiled source segments' e') := by
  have finishes := finish_eq_ok hf
  have returns' : d'.Returns (site.under o) := both.twin.returns both.fair finishes.returns rfl
  obtain ⟨segments', e', hf', finishes'⟩ := finish_ok (site.under o) span returns'
  have mirrors : Mirrors (o.trimUselessCode = true) (m.compiled source segments e)
      (m.compiled source segments' e') (Joined P d d') :=
    both.twin.mirrors both.fair both.fair' finishes.returns rfl
      (congrArg MethodBody.segments finishes.segments)
      (congrArg MethodBody.segments finishes'.segments)
      (congrArg Table.toList finishes.locals) (congrArg Table.toList finishes'.locals)
  exact ⟨segments', e', hf', rfl, rfl, rfl, .inr ⟨_, _, rfl, rfl⟩, Host.keeps_of_mirrors mirrors⟩

end Draft

namespace Job

open Draft

variable {o : Options} {j : Job}

/-- The method can be trimmed: the check goes through its body, from the locals of its arguments
on. -/
def trims (o : Options) (j : Job) : Bool :=
  match j.opening with
  | .ok d => ((Task.block j.stmts).keeps o j.site d.locals.names d).isSome
  | .error _ => false

/-- The trimmed method compiles, whatever the number of the next label and the warnings so far. -/
theorem compile_trims (hs : j.site.registry.Installed j.site.builtins)
    (unreachable : j.site.options.trimUnreachableCode = false)
    (useless : j.site.options.trimUselessCode = false) (ht : j.trims o = true) {m : Method}
    {labels : Nat} {warnings : Array Warning} (h : j.compile = .ok (m, labels, warnings))
    (labels' : Nat) (warnings' : Array Warning) :
    ∃ m' labels'' warnings'', j.method.compile (j.site.under o) j.source labels' warnings' =
        .ok (m', labels'', warnings'') ∧ m.Resembles (o.trimUselessCode = true) m' := by
  obtain ⟨segments, e, hsrc, rfl, -, -⟩ := Method.compile_eq_ok.1 h
  have begun := Synced.start o j.site j.labels labels' j.warnings warnings'
  have drafts : ∃ P names d d' span, Both o j.site P names d d' ∧
      d.finish j.site span = .ok (segments, e) ∧
      (start labels' warnings').source (j.site.under o) j.source =
        d'.finish (j.site.under o) span := by
    cases src : j.source with
    | declared decl =>
      simp only [src, Draft.source, bind_eq_ok] at hsrc
      obtain ⟨d₀, hp, d, hb, hf⟩ := hsrc
      have hop : j.opening = .ok d₀ := by simpa [opening, src] using hp
      have hst : d₀.stmts j.site j.stmts = .ok d := by simpa [stmts, src] using hb
      obtain ⟨d₀', hp', opened⟩ := Synced.params begun rfl rfl hp
      have roomy : d₀.Roomy := params_roomy (Nat.zero_le _) hp
      simp only [trims, hop, Option.isSome_iff_exists] at ht
      obtain ⟨names, keeps⟩ := ht
      obtain ⟨P, d', -, run', both, -⟩ :=
        (run_block _ hst).trims hs unreachable useless (.block _ opened) roomy keeps
      have hb' : d₀'.stmts (j.site.under o) decl.body.stmts = .ok d' := by
        simpa [Task.compile, stmts, src] using run'.compile_eq_ok
      refine ⟨P, names, d, d', decl.nameSpan, both, hf, ?_⟩
      have types : (j.site.under o).sig = j.site.sig := rfl
      simp only [Draft.source, types, hp', hb', ok_bind]
    | initializer isStatic =>
      simp only [src, Draft.source, bind_eq_ok] at hsrc
      obtain ⟨d, hd, hf⟩ := hsrc
      rw [emitAll_basing] at hd
      have straight := basing_straight isStatic
      have based := begun.piece rfl straight straight (basing_renamed isStatic _ _)
      have isOpen := fallsThrough_emitAll begun.fair.inRange straight rfl
      obtain ⟨d', hd', synced⟩ := based.defaults hs (locals_emitAll _) isOpen hd
      refine ⟨_, _, d, d', ⟨0, 0⟩, synced.toBoth, hf, ?_⟩
      have fields : ((j.site.under o).registry.class? (j.site.under o).owner).elim [] (·.fields) =
        (j.site.registry.class? j.site.owner).elim [] (·.fields) := rfl
      simp only [Draft.source, emitAll_basing, fields, hd', ok_bind]
  obtain ⟨P, names, d, d', span, both, hf, hsrc'⟩ := drafts
  obtain ⟨segments', e', hf', resembles⟩ := both.finish hf j.method j.source
  exact ⟨_, _, _, Method.compile_eq_ok.2 ⟨segments', e', hsrc'.trans hf', rfl, rfl, rfl⟩, resembles⟩

end Job
end ClassAsm
