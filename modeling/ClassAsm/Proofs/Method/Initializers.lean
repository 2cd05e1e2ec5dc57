import ClassAsm.Proofs.Trimming.Methods
import ClassAsm.Proofs.Flow.Graph

/-! The code of an initializer. It is one segment: the call of the base class where there is an
object, and then for each field of its kind that has a default the code of the default and what stores
it, in order of declaration. -/

namespace ClassAsm

open Draft

/-- The defaults of the fields of a kind, each with its code. -/
structure Site.Stores (site : Site) (isStatic : Bool) (fields : List Field)
    (stores : List (Field × Code)) : Prop where
  fields : stores.map Prod.fst =
    fields.filter fun f => f.isStatic == isStatic && f.default.isSome
  code : ∀ x ∈ stores, ∃ value, x.1.default = some value ∧
    (site.scope {}).valueCode value = .ok x.2 ∧ x.2.type = x.1.type

def Site.storingAll (site : Site) (stores : List (Field × Code)) : List Instruction :=
  stores.flatMap fun x => storing site x.1 x.2.instructions

namespace Draft

variable {site : Site} {d d' : Draft}

theorem defaults_stores {isStatic : Bool} {fields : List Field} (bare : d.locals = {})
    (h : d.defaults site isStatic fields = .ok d') :
    ∃ stores, site.Stores isStatic fields stores ∧ d' = d.emitAll (site.storingAll stores) := by
  induction fields generalizing d with
  | nil =>
    cases h
    exact ⟨[], ⟨rfl, nofun⟩, rfl⟩
  | cons f fields ih =>
    by_cases skip : f.default = none ∨ f.isStatic ≠ isStatic
    · rw [defaults_cons_of_other fields skip] at h
      obtain ⟨stores, all, rfl⟩ := ih bare h
      refine ⟨stores, ⟨?_, all.code⟩, rfl⟩
      rw [all.fields, List.filter_cons_of_neg]
      rcases skip with none' | other <;> simp [*]
    · push Not at skip
      obtain ⟨stored, rfl⟩ := skip
      obtain ⟨value, hv⟩ := Option.ne_none_iff_exists'.1 stored
      obtain ⟨c, hc, type, rest⟩ := (defaults_cons_eq_ok hv).1 h
      obtain ⟨stores, all, rfl⟩ := ih ((locals_emitAll _).trans bare) rest
      rw [bare] at hc
      refine ⟨(f, c) :: stores, ⟨?_, ?_⟩, ?_⟩
      · rw [List.map_cons, all.fields, List.filter_cons_of_pos (by simp [hv])]
      · intro x hx
        rcases List.mem_cons.1 hx with rfl | hx
        · exact ⟨value, hv, hc, type⟩
        · exact all.code x hx
      · exact (emitAll_append _ _).symm

theorem finish_of_straight {labels : Nat} {warnings : Array Warning} {code : List Instruction}
    {span : Span} {segments : List Segment} (straight : Straight code)
    (finished : ((start labels warnings).emitAll code).finish site span = .ok (segments, d')) :
    segments = [⟨startName, code ++ [.ret false]⟩] := by
  have hr : (start labels warnings).InRange := inRange_start _ _
  have opened := isTerminated_emitAll hr straight rfl
  have added : ((start labels warnings).emitAll code).codeAt 0 = code :=
    (codeAt_emitAll hr _).trans (if_pos rfl)
  have same := emitAll_sameFrame (d := start labels warnings) code
  have fin := finish_eq_ok finished
  rw [same.current] at opened
  generalize (start labels warnings).emitAll code = d at same opened added fin
  change (d.segment 0).isTerminated = false at opened
  have used : isUnused 0 (d.segment 0) = false := by simp [isUnused]
  have only : d.kept = [0] := by
    have one : d.segments.size = 1 := same.size
    simp [kept, one, List.range_succ, used]
  have returns : site.returnsVoid = true := by
    refine (fin.returns 0 (by simp [only]) opened).resolve_right ?_
    rw [same.live]
    exact Bool.noConfusion
  have closing : d.closing site 0 = [.ret false] := by
    simp [Draft.closing, opened, used, returns]
  have closed : d.closed site 0 = ⟨startName, code ++ [.ret false]⟩ := by
    rw [Draft.closed, closing, added, same.name]
    rfl
  rw [fin.segments, Draft.finished, only, List.map_singleton, closed]

end Draft

/-- The method is an initializer, with the code of the defaults. -/
structure Job.Initializes (j : Job) (isStatic : Bool) (stores : List (Field × Code)) (m : Method) :
    Prop where
  all : j.site.Stores isStatic ((j.site.registry.class? j.site.owner).elim [] (·.fields)) stores
  segments : m.segments =
    [⟨startName, basing isStatic ++ j.site.storingAll stores ++ [.ret false]⟩]

theorem Job.exists_initializes {j : Job} {isStatic : Bool} {m : Method} {labels : Nat}
    {warnings : Array Warning} (hs : j.site.registry.Installed j.site.builtins)
    (source : j.source = .initializer isStatic) (h : j.compile = .ok (m, labels, warnings)) :
    ∃ stores, j.Initializes isStatic stores m := by
  simp only [compile, Method.compile, bind_eq_ok, Prod.exists, Except.ok.injEq, Prod.mk.injEq,
    source, Draft.source, emitAll_basing] at h
  obtain ⟨segments, d', ⟨d, filled, finished⟩, rfl, -⟩ := h
  obtain ⟨stores, all, rfl⟩ := defaults_stores (locals_emitAll _) filled
  refine ⟨stores, all, ?_⟩
  rw [← emitAll_append] at finished
  have straight : Straight (basing isStatic ++ j.site.storingAll stores) := by
    refine (basing_straight isStatic).append fun i hi => ?_
    obtain ⟨x, hx, hi⟩ := List.mem_flatMap.1 hi
    obtain ⟨value, -, hc, -⟩ := all.code x hx
    exact storing_straight j.site x.1 (Scope.valueCode_leaves hs hc).straight i hi
  exact finish_of_straight straight finished

end ClassAsm
