import ClassAsm.Method.Compiled
import ClassAsm.Proofs.Method.Edit

/-! How a method is finished. Every segment in use gets at most one more instruction, which depends
on that segment alone, and the segments in use are the segments of the method. -/

namespace ClassAsm.Draft

variable {site : Site} {span : Span} {d d' : Draft} {i : Nat}

def closing (d : Draft) (site : Site) (i : Nat) : List Instruction :=
  if (d.segment i).isTerminated || isUnused i (d.segment i) then []
  else if site.returnsVoid then [.ret false]
  else [.br (d.segment i).name]

/-- The indices of the segments in use. -/
def kept (d : Draft) : List Nat :=
  (List.range d.segments.size).filter fun i => !isUnused i (d.segment i)

def closed (d : Draft) (site : Site) (i : Nat) : Segment :=
  ⟨(d.segment i).name, d.codeAt i ++ d.closing site i⟩

def finished (d : Draft) (site : Site) : List Segment := d.kept.map (d.closed site)

theorem mem_kept : i ∈ d.kept ↔ i < d.segments.size ∧ isUnused i (d.segment i) = false := by
  simp [kept]

theorem isUnused_iff : isUnused i (d.segment i) = true ↔
    d.codeAt i = [] ∧ i ≠ 0 ∧ (d.segment i).isTargeted = false := by
  simp [isUnused, codeAt, and_assoc]

/-- The segments in `S` have been closed. -/
structure Closes (site : Site) (S : List Nat) (d d' : Draft) : Prop where
  size : d'.segments.size = d.segments.size
  other : ∀ i ∉ S, d'.segment i = d.segment i
  name : ∀ i ∈ S, (d'.segment i).name = (d.segment i).name
  code : ∀ i ∈ S, d'.codeAt i = d.codeAt i ++ d.closing site i
  used : ∀ i ∈ S, isUnused i (d'.segment i) = isUnused i (d.segment i)
  returns : ∀ i ∈ S, (d.segment i).isTerminated = false → isUnused i (d.segment i) = false →
    site.returnsVoid = true ∨ (d.segment i).isLive = false
  labels : d'.labels = d.labels
  locals : d'.locals = d.locals
  warnings : d'.warnings = d.warnings
  level : d.depth = 0 → d'.depth = 0 ∧ d'.peak = d.peak

theorem Closes.refl (d : Draft) : Closes site [] d d :=
  ⟨rfl, fun _ _ => rfl, nofun, nofun, nofun, nofun, rfl, rfl, rfl, fun h => ⟨h, rfl⟩⟩

theorem Closes.snoc {S : List Nat} {d₁ : Draft} (h : Closes site S d d₁)
    (h' : Closes site [i] d₁ d') (hi : i ∉ S) : Closes site (S ++ [i]) d d' := by
  have same := h.other i hi
  have notLast : ∀ j ∈ S, j ∉ [i] := fun j hj hji => hi (List.mem_singleton.1 hji ▸ hj)
  have closing : d₁.closing site i = d.closing site i := by simp [Draft.closing, same]
  refine ⟨h'.size.trans h.size, ?_, ?_, ?_, ?_, ?_, h'.labels.trans h.labels,
    h'.locals.trans h.locals, h'.warnings.trans h.warnings, ?_⟩
  · intro j hj
    simp only [List.mem_append, not_or] at hj
    rw [h'.other j hj.2, h.other j hj.1]
  · intro j hj
    rcases List.mem_append.1 hj with hj | hj
    · rw [h'.other j (notLast j hj), h.name j hj]
    · obtain rfl := List.mem_singleton.1 hj
      rw [h'.name _ hj, same]
  · intro j hj
    rcases List.mem_append.1 hj with hj | hj
    · rw [codeAt, h'.other j (notLast j hj), ← codeAt, h.code j hj]
    · obtain rfl := List.mem_singleton.1 hj
      rw [h'.code _ hj, closing, codeAt, same, ← codeAt]
  · intro j hj
    rcases List.mem_append.1 hj with hj | hj
    · rw [h'.other j (notLast j hj), h.used j hj]
    · obtain rfl := List.mem_singleton.1 hj
      rw [h'.used _ hj, same]
  · intro j hj
    rcases List.mem_append.1 hj with hj | hj
    · exact h.returns j hj
    · obtain rfl := List.mem_singleton.1 hj
      rw [← same]
      exact h'.returns _ hj
  · intro h0
    have l := h.level h0
    have l' := h'.level l.1
    exact ⟨l'.1, l'.2.trans l.2⟩

/-- The last instruction of a segment, after its target may have been marked. -/
theorem closes_emit {e : Draft} {x : Instruction} (hi : i < d.segments.size)
    (hu : isUnused i (d.segment i) = false) (hx : d.closing site i = [x]) (hf : x.effect = ⟨0, 0⟩)
    (hr : site.returnsVoid = true ∨ (d.segment i).isLive = false)
    (marked : ∃ runs, e = (d.switchTo i).mark i runs ∨ e = d.switchTo i) :
    Closes site [i] d (e.emit x) := by
  have size : e.segments.size = d.segments.size := by
    obtain ⟨_, rfl | rfl⟩ := marked
    · exact size_mark _
    · rfl
  have other : ∀ j, j ≠ i → e.segment j = d.segment j := fun j hj => by
    obtain ⟨_, rfl | rfl⟩ := marked
    · rw [segment_mark, if_neg fun h => hj h.1]; rfl
    · rfl
  have same : (e.segment i).name = (d.segment i).name ∧ e.codeAt i = d.codeAt i := by
    obtain ⟨_, rfl | rfl⟩ := marked
    · rw [codeAt_mark, segment_mark]
      refine ⟨?_, rfl⟩
      split <;> rfl
    · exact ⟨rfl, rfl⟩
  have current : e.current = i := by obtain ⟨_, rfl | rfl⟩ := marked <;> rfl
  have frame : e.labels = d.labels ∧ e.locals = d.locals ∧ e.warnings = d.warnings ∧
      e.depth = d.depth ∧ e.peak = d.peak := by
    obtain ⟨_, rfl | rfl⟩ := marked <;> exact ⟨rfl, rfl, rfl, rfl, rfl⟩
  have range : e.InRange := by rw [InRange, current, size]; exact hi
  have code : (e.emit x).codeAt i = d.codeAt i ++ [x] := by
    rw [codeAt_emit range, if_pos current.symm, same.2]
  refine
    { size := by rw [size_emit, size]
      other := fun j hj => ?_
      name := ?_, code := ?_, used := ?_, returns := ?_
      labels := frame.1, locals := frame.2.1, warnings := frame.2.2.1
      level := fun h0 => ?_ }
  · rw [List.mem_singleton] at hj
    rw [segment_emit, if_neg (by rw [current]; exact fun h => hj h.1), other j hj]
  · simp [same.1]
  · simp [code, hx]
  · simp only [List.mem_singleton, forall_eq, hu]
    by_contra hn
    have := (isUnused_iff.1 ((Bool.not_eq_false _).mp hn)).1
    simp [code] at this
  · simp only [List.mem_singleton, forall_eq]
    exact fun _ _ => hr
  · have hd : e.depth = 0 := frame.2.2.2.1.trans h0
    simp [emit, hf, hd, frame.2.2.2.2]

theorem closeSegment_eq_ok (hi : i < d.segments.size)
    (h : closeSegment site span d i = .ok d') : Closes site [i] d d' := by
  unfold closeSegment at h
  simp only at h
  split at h
  · next hc =>
    cases h
    have none : d.closing site i = [] := by rw [closing, if_pos hc]
    refine ⟨rfl, fun _ _ => rfl, fun _ _ => rfl, ?_, fun _ _ => rfl, ?_, rfl, rfl, rfl,
      fun h => ⟨h, rfl⟩⟩
    · simp [none]
    · simp only [List.mem_singleton, forall_eq]
      intro ht hu
      simp [ht, hu] at hc
  · next hc =>
    have hu : isUnused i (d.segment i) = false := by
      by_contra hu
      simp [hu] at hc
    split at h
    · next hv =>
      cases h
      exact closes_emit hi hu (by rw [closing, if_neg hc, if_pos hv]) rfl (.inl hv)
        ⟨true, .inr rfl⟩
    · next hv =>
      split at h
      · next hl =>
        cases h
        exact closes_emit hi hu (by rw [closing, if_neg hc, if_neg hv]; rfl) rfl
          (.inr (by simpa using hl)) ⟨_, .inl rfl⟩
      · cases h

theorem closeAll_eq_ok {S : List Nat} {d₁ : Draft} {is : List Nat} (h : Closes site S d d₁)
    (hn : (S ++ is).Nodup) (hlt : ∀ i ∈ is, i < d.segments.size)
    (hok : is.foldlM (closeSegment site span) d₁ = .ok d') : Closes site (S ++ is) d d' := by
  induction is generalizing S d₁ with
  | nil => simpa [← foldlM_nil_eq_ok.1 hok] using h
  | cons i is ih =>
    obtain ⟨d₂, hc, hok⟩ := foldlM_cons_eq_ok.1 hok
    have one := closeSegment_eq_ok (by rw [h.size]; exact hlt i (by simp)) hc
    have apart : i ∉ S := fun hi => (List.nodup_append.1 hn).2.2 i hi i (by simp) rfl
    rw [List.append_cons] at hn ⊢
    exact ih (h.snoc one apart) hn (fun j hj => hlt j (List.mem_cons_of_mem _ hj)) hok

/-- Finishing a draft that has no operands left. -/
structure Finishes (site : Site) (d d' : Draft) (segments : List Segment) : Prop where
  segments : segments = d.finished site
  returns : ∀ i ∈ d.kept, (d.segment i).isTerminated = false →
    site.returnsVoid = true ∨ (d.segment i).isLive = false
  labels : d'.labels = d.labels
  locals : d'.locals = d.locals
  warnings : d'.warnings = d.warnings
  level : d.depth = 0 → d'.peak = d.peak

theorem finish_eq_ok {segments : List Segment} (h : d.finish site span = .ok (segments, d')) :
    Finishes site d d' segments := by
  simp only [finish, bind_eq_ok, Except.ok.injEq, Prod.mk.injEq] at h
  obtain ⟨d₁, hc, hs, rfl⟩ := h
  have closes : Closes site (List.range d.segments.size) d d₁ :=
    closeAll_eq_ok (S := []) (Closes.refl d) List.nodup_range (fun _ => List.mem_range.1) hc
  have indexed : d₁.segments.toList.zipIdx =
      (List.range d.segments.size).map fun i => (d₁.segment i, i) := by
    apply List.ext_getElem
    · simp [closes.size]
    · intro i h₁ h₂
      have hi : i < d₁.segments.size := by simpa using h₁
      simp [segment_eq_getElem hi]
  refine
    { segments := ?_
      returns := fun i hi ht => ?_
      labels := closes.labels, locals := closes.locals, warnings := closes.warnings
      level := fun h0 => (closes.level h0).2 }
  · rw [← hs, indexed, List.filter_map, List.map_map, finished, kept]
    have used : ((fun p : OpenSegment × Nat => !isUnused p.2 p.1) ∘ fun i => (d₁.segment i, i)) =
        fun i => !isUnused i (d₁.segment i) := rfl
    have keep : (List.range d.segments.size).filter (fun i => !isUnused i (d₁.segment i)) =
        (List.range d.segments.size).filter fun i => !isUnused i (d.segment i) :=
      List.filter_congr fun i hi => by rw [closes.used i hi]
    rw [used, keep]
    apply List.map_congr_left
    intro i hi
    have hr := List.mem_of_mem_filter hi
    simp only [Function.comp_apply, OpenSegment.close, closed, Segment.mk.injEq]
    exact ⟨closes.name i hr, closes.code i hr⟩
  · rw [mem_kept] at hi
    exact closes.returns i (List.mem_range.2 hi.1) ht hi.2

end ClassAsm.Draft
