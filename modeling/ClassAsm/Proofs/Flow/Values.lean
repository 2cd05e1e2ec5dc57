import ClassAsm.Proofs.Flow.Falls
import ClassAsm.Proofs.Program.Slots

/-! The values of methods. A method whose body compiles is refused only for want of a value, and
that exactly if it has to give one and its body may fall through. In a method that is accepted and
has to give a value, every return pops one. -/

namespace ClassAsm

open Draft

namespace Draft

variable {site : Site} {span : Span} {d d' d₁ : Draft} {i : Nat}

/-! Finishing a draft. -/

/-- Running code comes to the end of the segment, and the method has to give a value. -/
structure Lacks (site : Site) (d : Draft) (i : Nat) : Prop where
  opened : (d.segment i).isTerminated = false
  used : isUnused i (d.segment i) = false
  returns : site.returnsVoid = false
  live : (d.segment i).isLive = true

def lacking (d : Draft) (site : Site) (span : Span) : Stop :=
  d.stop ((Fault.fallsThrough site.sig.name (site.showType site.sig.returnType)).at span)

theorem Lacks.closeSegment (h : Lacks site d i) :
    closeSegment site span d i = .error (d.lacking site span) := by
  simp only [Draft.closeSegment, h.opened, h.used, h.returns, h.live, Bool.or_self,
    Bool.false_eq_true, if_false, Bool.not_true]
  rfl

theorem exists_closeSegment (span : Span) (h : ¬Lacks site d i) :
    ∃ d', closeSegment site span d i = .ok d' := by
  unfold Draft.closeSegment
  simp only
  split
  · exact ⟨_, rfl⟩
  next need =>
  split
  · exact ⟨_, rfl⟩
  next returns =>
  split
  · exact ⟨_, rfl⟩
  next live =>
  simp only [Bool.or_eq_true, not_or, Bool.not_eq_true] at need
  exact absurd ⟨need.1, need.2, by simpa using returns, by simpa using live⟩ h

/-- Closing segments fails at the first that lacks a value. Those before it do not matter, since
closing them leaves it as it is. -/
theorem closeAll_or (span : Span) {S is : List Nat} (h : Closes site S d d₁) (hn : (S ++ is).Nodup)
    (hlt : ∀ i ∈ is, i < d.segments.size) :
    (∃ i ∈ is, Lacks site d i) ∧
      is.foldlM (closeSegment site span) d₁ = .error (d.lacking site span) ∨
    (∀ i ∈ is, ¬Lacks site d i) ∧ ∃ d', is.foldlM (closeSegment site span) d₁ = .ok d' := by
  induction is generalizing S d₁ with
  | nil => exact .inr ⟨List.forall_mem_nil _, d₁, rfl⟩
  | cons i is ih =>
    have apart : i ∉ S := fun hi => (List.nodup_append.1 hn).2.2 i hi i (by simp) rfl
    have same := h.other i apart
    rw [List.foldlM_cons]
    by_cases lacks : Lacks site d i
    · have refused : Lacks site d₁ i := ⟨same ▸ lacks.opened, same ▸ lacks.used, lacks.returns,
        same ▸ lacks.live⟩
      refine .inl ⟨⟨i, List.mem_cons_self, lacks⟩, ?_⟩
      rw [refused.closeSegment, error_bind, lacking, stop, h.warnings]
      rfl
    · have closes : ¬Lacks site d₁ i := fun h' =>
        lacks ⟨same ▸ h'.opened, same ▸ h'.used, h'.returns, same ▸ h'.live⟩
      obtain ⟨d₂, closed⟩ := exists_closeSegment span closes
      have one := closeSegment_eq_ok (by rw [h.size]; exact hlt i (by simp)) closed
      rw [closed, ok_bind]
      rw [List.append_cons] at hn
      rcases ih (h.snoc one apart) hn fun k hk => hlt k (List.mem_cons_of_mem _ hk) with
        ⟨⟨k, hk, hl⟩, stopped⟩ | ⟨whole, done⟩
      · exact .inl ⟨⟨k, List.mem_cons_of_mem _ hk, hl⟩, stopped⟩
      · exact .inr ⟨List.forall_mem_cons.2 ⟨lacks, whole⟩, done⟩

theorem finish_or (d : Draft) (site : Site) (span : Span) :
    (∃ i < d.segments.size, Lacks site d i) ∧
      d.finish site span = .error (d.lacking site span) ∨
    (∀ i < d.segments.size, ¬Lacks site d i) ∧ ∃ r, d.finish site span = .ok r := by
  have none : Closes site [] d d := Closes.refl d
  have distinct : ([] ++ List.range d.segments.size).Nodup := List.nodup_range
  have all := closeAll_or span none distinct fun _ => List.mem_range.1
  simp only [List.mem_range] at all
  rcases all with ⟨gap, stopped⟩ | ⟨whole, d', done⟩
  · exact .inl ⟨gap, by rw [finish, stopped, error_bind]⟩
  · refine .inr ⟨whole, ?_⟩
    rw [finish, done, ok_bind]
    exact ⟨_, rfl⟩

theorem Shut.lacks_iff {before : Array Warning} {low : Nat} (h : Shut [d.current] d)
    (hr : d.InRange) (lit : Lit site before d) (shaped : Shaped low d) :
    (∃ i < d.segments.size, Lacks site d i) ↔ site.returnsVoid = false ∧ d.isDead = false := by
  constructor
  · rintro ⟨i, -, lacks⟩
    have here : i = d.current := by
      by_contra other
      have closed := h i (by simpa using other) lacks.live
      rw [lacks.opened] at closed
      cases closed
    exact ⟨lacks.returns, isDead_eq_false_iff.2 (here ▸ ⟨lacks.opened, lacks.live⟩)⟩
  · rintro ⟨returns, runs⟩
    obtain ⟨opened, live⟩ := isDead_eq_false_iff.1 runs
    have kept := lit.mem_kept_of_isLive shaped hr live
    exact ⟨d.current, hr, opened, (mem_kept.1 kept).2, returns, live⟩

/-! The body of a method. -/

theorem params_falls (hr : d.InRange) (ho : d.fallsThrough = true) {n : Nat}
    {ps : List (Param × TypeRef)} (h : d.params site n ps = .ok d') : Falls d d' true := by
  induction ps generalizing d n with
  | nil =>
    cases h
    exact Falls.refl _
  | cons p ps ih =>
    obtain ⟨p, type⟩ := p
    obtain ⟨new, -, h⟩ := params_cons_eq_ok h
    have leaves := copy_leaves (argumentSlot site n) d.locals.size False
    obtain ⟨copied, ho'⟩ := Step.open_of_code (d := d.addLocal p.name type) site hr ho leaves
    have bound : Falls d (d.addLocal p.name type) true := .quiet rfl rfl
    have stored := Falls.emitAll (d := d.addLocal p.name type) hr ho leaves.straight
    exact (bound.trans stored le_rfl).trans (ih copied.inRange ho' h) copied.grows.size

theorem shut_start (labels : Nat) (warnings : Array Warning) :
    Shut [0] (start labels warnings) := by
  intro i hi live
  cases i with
  | zero => simp at hi
  | succ i => cases live

end Draft

namespace Job

variable {j : Job} {d d₀ : Draft} {m : Method} {labels : Nat} {warnings : Array Warning}

/-- How a declared method ends whose body compiles: with a value lacking, or else it is accepted. -/
structure Ends (j : Job) (decl : MethodDecl) : Prop where
  lacks : (∃ stop, j.compile = .error stop ∧ stop.failure.code = .missingValue) ↔
    j.site.sig.returnType.cls ≠ j.site.builtins.void ∧ Stmt.allFall decl.body.stmts = true
  only : ∀ stop, j.compile = .error stop → stop.failure = (Fault.fallsThrough j.site.sig.name
    (j.site.showType j.site.sig.returnType)).at decl.nameSpan

/-- At the end of the body, the current segment is the only one in running code that is open, if
any is. -/
theorem body_lacks_iff (hs : j.site.registry.Installed j.site.builtins) {decl : MethodDecl}
    (source : j.source = .declared decl) (opened : j.opening = .ok d₀)
    (body : d₀.stmts j.site decl.body.stmts = .ok d) :
    (∃ i < d.segments.size, Lacks j.site d i) ↔
      j.site.returnsVoid = false ∧ Stmt.allFall decl.body.stmts = true := by
  have hr := inRange_start j.labels j.warnings
  have ho := fallsThrough_start j.labels j.warnings
  have params := (opening_eq_params source).symm.trans opened
  have first := (params_step False hr ho params).1
  have run := run_block _ body
  have rest : Step j.site False d₀ d := run_done hs run first.inRange trivial False.elim
  have edits := (first.trans rest).edits
  have falls := (params_falls hr ho params).trans (run_flows hs run first.inRange trivial)
    first.grows.size
  have dead : d.isDead = !Stmt.allFall decl.body.stmts := by
    rw [falls.dead, Bool.true_and]
    rfl
  rw [(falls.shut [] (shut_start _ _)).lacks_iff rest.inRange (lit_of_edits edits)
    (shaped_of_edits edits), dead, Bool.not_eq_false']

theorem ends (hs : j.site.registry.Installed j.site.builtins) {decl : MethodDecl}
    (source : j.source = .declared decl) (opened : j.opening = .ok d₀)
    (body : d₀.stmts j.site decl.body.stmts = .ok d) : j.Ends decl := by
  have lacks := body_lacks_iff hs source opened body
  have params := (opening_eq_params source).symm.trans opened
  have void : j.site.returnsVoid = false ↔ j.site.sig.returnType.cls ≠ j.site.builtins.void := by
    simp [Site.returnsVoid]
  rw [void] at lacks
  rcases finish_or d j.site decl.nameSpan with ⟨gap, refused⟩ | ⟨whole, r, done⟩
  · have stopped : j.compile = .error (d.lacking j.site decl.nameSpan) := by
      simp only [compile, Method.compile, Draft.source, source, params, body, refused, ok_bind,
        error_bind]
    refine ⟨⟨fun _ => lacks.1 gap, fun _ => ⟨_, stopped, rfl⟩⟩, fun stop h => ?_⟩
    rw [stopped] at h
    cases h
    rfl
  · have accepted : ∃ result, j.compile = .ok result := by
      simp only [compile, Method.compile, Draft.source, source, params, body, done, ok_bind]
      exact ⟨_, rfl⟩
    obtain ⟨result, accepted⟩ := accepted
    have passes (stop : Stop) : j.compile ≠ .error stop := by simp [accepted]
    refine ⟨⟨fun h => ?_, fun h => ?_⟩, fun stop h => absurd h (passes stop)⟩
    · obtain ⟨stop, h, -⟩ := h
      exact absurd h (passes stop)
    · obtain ⟨i, hi, hl⟩ := lacks.2 h
      exact absurd hl (whole i hi)

theorem of_mem_ret (hs : j.site.registry.Installed j.site.builtins) (linked : j.IsLinked)
    (h : j.compile = .ok (m, labels, warnings)) (returns : j.site.returnsVoid = false) {s : Segment}
    (hm : s ∈ m.segments) {hasValue : Bool} (hi : .ret hasValue ∈ s.code) : hasValue = true := by
  obtain ⟨d₀, d, opened, -, written, body, -⟩ := exists_written hs h
  rw [Method.segments, body] at hm
  obtain ⟨i, -, rfl⟩ := List.mem_map.1 hm
  obtain ⟨names, code, woven, he⟩ := written.closed i
  rw [he, (opens linked opened).code] at hi
  have copied : .ret hasValue ∉ j.prologue := by simp [prologue, copying]
  rcases List.mem_append.1 hi with hi | hi
  · split at hi
    · exact absurd hi copied
    · cases hi
  · rw [woven.of_mem_ret hs hi, returns]
    rfl

end Job

namespace Program

variable {options : Options} {items : List Item}

/-- A method whose body compiles is refused exactly if it has to give a value and its body may fall
through. In one that is accepted and has to give a value, every return pops one, even in code that
never runs. -/
theorem ends_of_mem_jobs {j : Job} (hj : j ∈ jobs options items) :
    (∀ decl d₀ d, j.source = .declared decl → j.opening = .ok d₀ →
      d₀.stmts j.site decl.body.stmts = .ok d → j.Ends decl) ∧
    ∀ m labels warnings, j.compile = .ok (m, labels, warnings) →
      j.site.sig.returnType.cls ≠ j.site.builtins.void →
      ∀ s ∈ m.segments, ∀ hasValue, .ret hasValue ∈ s.code → hasValue = true := by
  have hs := installed_of_mem_jobs hj
  refine ⟨fun decl d₀ d source opened body => Job.ends hs source opened body, ?_⟩
  intro m labels warnings h returns s hm hasValue hi
  have linked : j.IsLinked := fun decl hd => params_of_mem_jobs hj hd
  exact Job.of_mem_ret hs linked h (by simpa [Site.returnsVoid] using returns) hm hi

/-- A loop that returns, with nothing behind it:
```
Drift =>
  find n: i32 => while n > 0 => return n;
``` -/
def drift : List Item :=
  let s : Span := ⟨0, 0⟩
  let n : Expr := .ident "n" s
  [.cls ⟨"Drift", s, true, [], [⟨"find", s, "i32", s, [⟨"n", "i32", s⟩],
    .mk [.loop (.binary .gt n (.int 0 s) s) (.mk [.ret (some n) s] s) s] s, true, .static, s⟩], s⟩]

theorem ends_of_mem_jobs_drift :
    (∃ j ∈ jobs {} drift, ∃ stop, j.compile = .error stop ∧ stop.failure.code = .missingValue) ∧
    ∃ j ∈ jobs {} meter, ∃ m labels warnings, j.compile = .ok (m, labels, warnings) ∧
      ∀ s ∈ m.segments, ∀ hasValue, .ret hasValue ∈ s.code → hasValue = true := by
  constructor
  · have first : ((jobs {} drift).head?.any fun j => !j.stmts.isEmpty &&
        ((j.opening >>= fun d₀ => d₀.stmts j.site j.stmts).isOk &&
          (j.site.sig.returnType.cls != j.site.builtins.void && Stmt.allFall j.stmts))) = true := by
      decide +kernel
    obtain ⟨j, hj, hok⟩ := (Option.any_eq_true _ _).1 first
    cases source : j.source with
    | initializer => simp [Job.stmts, source] at hok
    | declared decl =>
      simp only [Job.stmts, source, Bool.and_eq_true, bne_iff_ne] at hok
      obtain ⟨d, hd⟩ := exists_eq_ok hok.2.1
      obtain ⟨d₀, opened, body⟩ := bind_eq_ok.1 hd
      have mem := List.mem_of_mem_head? hj
      exact ⟨j, mem, ((ends_of_mem_jobs mem).1 decl d₀ d source opened body).lacks.2 hok.2.2⟩
  · have first : ((jobs {} meter).head?.any fun j => j.compile.isOk &&
        j.site.sig.returnType.cls != j.site.builtins.void) = true := by decide +kernel
    obtain ⟨j, hj, hok⟩ := (Option.any_eq_true _ _).1 first
    simp only [Bool.and_eq_true, bne_iff_ne] at hok
    obtain ⟨⟨m, labels, warnings⟩, h⟩ := exists_eq_ok hok.1
    have mem := List.mem_of_mem_head? hj
    exact ⟨j, mem, m, labels, warnings, h, (ends_of_mem_jobs mem).2 m labels warnings h hok.2⟩

end Program
end ClassAsm
