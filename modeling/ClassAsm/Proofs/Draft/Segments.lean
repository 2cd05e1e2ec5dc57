import Mathlib.Tactic
import ClassAsm.Proofs.Draft.Label

/-! What the operations on a draft do to its segments. Instructions go to the end of the current
segment, a branch marks its target, and a new segment comes after all others. Nothing else changes,
so a later draft extends every earlier one. -/

namespace ClassAsm.Draft

/-- The code of a segment so far. -/
def codeAt (d : Draft) (i : Nat) : List Instruction := (d.segment i).code.toList

/-- The current segment is one of the draft's. -/
def InRange (d : Draft) : Prop := d.current < d.segments.size

variable {d : Draft} {i t : Nat}

theorem segment_eq_getElem (h : i < d.segments.size) : d.segment i = d.segments[i] := by
  simp [segment, h]

theorem codeAt_of_size_le (h : d.segments.size ≤ i) : d.codeAt i = [] := by
  simp [codeAt, segment, h]
  rfl

theorem isTerminated_segment :
    (d.segment i).isTerminated = (d.codeAt i).getLast?.any Instruction.isTerminator := by
  simp [OpenSegment.isTerminated, codeAt]

/-! Emission. -/

theorem segment_emit (x : Instruction) :
    (d.emit x).segment i =
      if i = d.current ∧ i < d.segments.size then
        { d.segment i with code := (d.segment i).code.push x }
      else d.segment i := by
  simp only [segment, emit, Array.getElem?_modify]
  by_cases hi : d.current = i
  · subst hi
    by_cases h : d.current < d.segments.size <;> simp [h]
  · simp [hi, Ne.symm hi]

@[simp] theorem size_emit (x : Instruction) : (d.emit x).segments.size = d.segments.size := by
  simp [emit]

@[simp] theorem name_emit (x : Instruction) : ((d.emit x).segment i).name = (d.segment i).name := by
  rw [segment_emit]; split <;> rfl

@[simp] theorem isLive_emit (x : Instruction) :
    ((d.emit x).segment i).isLive = (d.segment i).isLive := by
  rw [segment_emit]; split <;> rfl

@[simp] theorem isTargeted_emit (x : Instruction) :
    ((d.emit x).segment i).isTargeted = (d.segment i).isTargeted := by
  rw [segment_emit]; split <;> rfl

@[simp] theorem isMuted_emit (x : Instruction) :
    ((d.emit x).segment i).isMuted = (d.segment i).isMuted := by
  rw [segment_emit]; split <;> rfl

theorem codeAt_emit (h : d.InRange) (x : Instruction) :
    (d.emit x).codeAt i = if i = d.current then d.codeAt i ++ [x] else d.codeAt i := by
  rw [codeAt, segment_emit]
  by_cases hi : i = d.current
  · subst hi
    rw [if_pos ⟨rfl, h⟩, if_pos rfl]
    simp [codeAt]
  · simp [hi, codeAt]

/-- Two drafts that differ in code and stack height at most. -/
structure SameFrame (d d' : Draft) : Prop where
  size : d'.segments.size = d.segments.size
  current : d'.current = d.current
  name : ∀ i, (d'.segment i).name = (d.segment i).name
  live : ∀ i, (d'.segment i).isLive = (d.segment i).isLive
  targeted : ∀ i, (d'.segment i).isTargeted = (d.segment i).isTargeted
  muted : ∀ i, (d'.segment i).isMuted = (d.segment i).isMuted
  labels : d'.labels = d.labels
  locals : d'.locals = d.locals
  warnings : d'.warnings = d.warnings

theorem emit_sameFrame (x : Instruction) : SameFrame d (d.emit x) :=
  ⟨size_emit x, rfl, fun _ => name_emit x, fun _ => isLive_emit x, fun _ => isTargeted_emit x,
    fun _ => isMuted_emit x, rfl, rfl, rfl⟩

theorem SameFrame.trans {a b c : Draft} (h : SameFrame a b) (h' : SameFrame b c) :
    SameFrame a c :=
  ⟨h'.size.trans h.size, h'.current.trans h.current, fun i => (h'.name i).trans (h.name i),
    fun i => (h'.live i).trans (h.live i), fun i => (h'.targeted i).trans (h.targeted i),
    fun i => (h'.muted i).trans (h.muted i), h'.labels.trans h.labels, h'.locals.trans h.locals,
    h'.warnings.trans h.warnings⟩

@[simp] theorem emitAll_nil : d.emitAll [] = d := rfl

@[simp] theorem emitAll_cons (x : Instruction) (c : List Instruction) :
    d.emitAll (x :: c) = (d.emit x).emitAll c := rfl

theorem emitAll_append (c c' : List Instruction) :
    d.emitAll (c ++ c') = (d.emitAll c).emitAll c' := by
  simp [emitAll]

theorem emit_eq_emitAll (x : Instruction) : d.emit x = d.emitAll [x] := rfl

theorem emitAll_sameFrame (c : List Instruction) : SameFrame d (d.emitAll c) := by
  induction c generalizing d with
  | nil => exact ⟨rfl, rfl, fun _ => rfl, fun _ => rfl, fun _ => rfl, fun _ => rfl, rfl, rfl, rfl⟩
  | cons x c ih => exact (emit_sameFrame x).trans ih

@[simp] theorem size_emitAll (c : List Instruction) :
    (d.emitAll c).segments.size = d.segments.size :=
  (emitAll_sameFrame c).size

@[simp] theorem current_emitAll (c : List Instruction) : (d.emitAll c).current = d.current :=
  (emitAll_sameFrame c).current

@[simp] theorem locals_emitAll (c : List Instruction) : (d.emitAll c).locals = d.locals :=
  (emitAll_sameFrame c).locals

@[simp] theorem name_emitAll (c : List Instruction) :
    ((d.emitAll c).segment i).name = (d.segment i).name :=
  (emitAll_sameFrame c).name i

@[simp] theorem isLive_emitAll (c : List Instruction) :
    ((d.emitAll c).segment i).isLive = (d.segment i).isLive :=
  (emitAll_sameFrame c).live i

@[simp] theorem isMuted_emitAll (c : List Instruction) :
    ((d.emitAll c).segment i).isMuted = (d.segment i).isMuted :=
  (emitAll_sameFrame c).muted i

theorem InRange.emit (h : d.InRange) (x : Instruction) : (d.emit x).InRange := by
  rw [InRange, size_emit]
  exact h

theorem codeAt_emitAll (h : d.InRange) (c : List Instruction) :
    (d.emitAll c).codeAt i = if i = d.current then d.codeAt i ++ c else d.codeAt i := by
  induction c generalizing d with
  | nil => simp
  | cons x c ih =>
    rw [emitAll_cons, ih (h.emit x), codeAt_emit h]
    change (if i = d.current then _ else _) = _
    by_cases hi : i = d.current <;> simp [hi]

theorem InRange.emitAll (h : d.InRange) (c : List Instruction) : (d.emitAll c).InRange := by
  rw [InRange, size_emitAll, current_emitAll]
  exact h

/-! Branches. -/

/-- The target of a branch is marked, and live if the branch runs. -/
def mark (d : Draft) (t : Nat) (runs : Bool) : Draft :=
  { d with
    segments := d.segments.modify t fun s =>
      { s with isTargeted := true, isLive := s.isLive || runs } }

variable (make : String → Instruction)

theorem branch_eq : d.branch make t = (d.mark t (!d.isDead)).emit (make (d.segment t).name) := rfl

theorem segment_mark (runs : Bool) :
    (d.mark t runs).segment i =
      if i = t ∧ i < d.segments.size then
        { d.segment i with isTargeted := true, isLive := (d.segment i).isLive || runs }
      else d.segment i := by
  simp only [segment, mark, Array.getElem?_modify]
  by_cases hi : t = i
  · subst hi
    by_cases h : t < d.segments.size <;> simp [h]
  · simp [hi, Ne.symm hi]

@[simp] theorem size_mark (runs : Bool) : (d.mark t runs).segments.size = d.segments.size := by
  simp [mark]

theorem codeAt_mark (runs : Bool) : (d.mark t runs).codeAt i = d.codeAt i := by
  rw [codeAt, segment_mark]
  split <;> rfl

@[simp] theorem size_branch : (d.branch make t).segments.size = d.segments.size := by
  simp [branch_eq]

@[simp] theorem current_branch : (d.branch make t).current = d.current := rfl

@[simp] theorem labels_branch : (d.branch make t).labels = d.labels := rfl

@[simp] theorem locals_branch : (d.branch make t).locals = d.locals := rfl

@[simp] theorem warnings_branch : (d.branch make t).warnings = d.warnings := rfl

@[simp] theorem name_branch : ((d.branch make t).segment i).name = (d.segment i).name := by
  rw [branch_eq, name_emit, segment_mark]
  split <;> rfl

@[simp] theorem isMuted_branch : ((d.branch make t).segment i).isMuted = (d.segment i).isMuted := by
  rw [branch_eq, isMuted_emit, segment_mark]
  split <;> rfl

theorem isLive_branch (ht : t < d.segments.size) :
    ((d.branch make t).segment i).isLive =
      ((d.segment i).isLive || (decide (i = t) && !d.isDead)) := by
  rw [branch_eq, isLive_emit, segment_mark]
  by_cases hi : i = t
  · subst hi
    simp [ht]
  · simp [hi]

theorem isTargeted_branch (ht : t < d.segments.size) :
    ((d.branch make t).segment i).isTargeted = ((d.segment i).isTargeted || decide (i = t)) := by
  rw [branch_eq, isTargeted_emit, segment_mark]
  by_cases hi : i = t
  · subst hi
    simp [ht]
  · simp [hi]

theorem codeAt_branch (h : d.InRange) :
    (d.branch make t).codeAt i =
      if i = d.current then d.codeAt i ++ [make (d.segment t).name] else d.codeAt i := by
  rw [branch_eq, codeAt_emit (by rw [InRange, size_mark]; exact h), codeAt_mark]
  rfl

theorem InRange.branch (h : d.InRange) : (d.branch make t).InRange := by
  rw [InRange, size_branch]
  exact h

/-! New segments. -/

variable (stem : String) (muted : Bool)

@[simp] theorem spawnFresh_fst : (d.spawnFresh stem muted).1 = d.segments.size := rfl

theorem segment_spawnFresh :
    (d.spawnFresh stem muted).2.segment i =
      if i = d.segments.size then
        { name := label stem d.labels, isMuted := muted || (d.segment d.current).isMuted }
      else d.segment i := by
  simp only [spawnFresh, spawn, freshLabel, segment, Array.getElem?_push]
  by_cases hi : i = d.segments.size <;> simp [hi, label]

@[simp] theorem size_spawnFresh :
    (d.spawnFresh stem muted).2.segments.size = d.segments.size + 1 := by
  simp [spawnFresh, spawn, freshLabel]

@[simp] theorem current_spawnFresh : (d.spawnFresh stem muted).2.current = d.current := rfl

@[simp] theorem labels_spawnFresh : (d.spawnFresh stem muted).2.labels = d.labels + 1 := rfl

@[simp] theorem locals_spawnFresh : (d.spawnFresh stem muted).2.locals = d.locals := rfl

@[simp] theorem warnings_spawnFresh : (d.spawnFresh stem muted).2.warnings = d.warnings := rfl

theorem segment_spawnFresh_of_lt (h : i < d.segments.size) :
    (d.spawnFresh stem muted).2.segment i = d.segment i := by
  rw [segment_spawnFresh, if_neg (by omega)]

theorem codeAt_spawnFresh : (d.spawnFresh stem muted).2.codeAt i = d.codeAt i := by
  rw [codeAt, segment_spawnFresh]
  split
  · next h => subst h; simp [codeAt, segment]; rfl
  · rfl

theorem InRange.spawnFresh (h : d.InRange) : (d.spawnFresh stem muted).2.InRange := by
  rw [InRange, size_spawnFresh]
  exact Nat.lt_succ_of_lt h

theorem enterUnreachable_eq :
    d.enterUnreachable = (d.spawnFresh "Unreachable" true).2.switchTo d.segments.size := rfl

/-! Emission, wherever the current segment is. -/

theorem codeAt_emit_of_not_inRange (h : ¬ d.InRange) (x : Instruction) :
    (d.emit x).codeAt i = d.codeAt i := by
  rw [codeAt, segment_emit, if_neg]
  · rfl
  · rintro ⟨rfl, lt⟩
    exact h lt

theorem codeAt_emitAll_or (c : List Instruction) :
    (d.emitAll c).codeAt i = d.codeAt i ∨ (d.emitAll c).codeAt i = d.codeAt i ++ c := by
  by_cases h : d.InRange
  · rw [codeAt_emitAll h]
    split
    · exact .inr rfl
    · exact .inl rfl
  · left
    induction c generalizing d with
    | nil => rfl
    | cons x c ih =>
      have h' : ¬ (d.emit x).InRange := by rwa [InRange, size_emit]
      rw [emitAll_cons, ih h', codeAt_emit_of_not_inRange h]

theorem codeAt_branch_or (c : List Instruction) (make : String → Instruction) :
    ((d.emitAll c).branch make t).codeAt i = d.codeAt i ∨
      ∃ l, ((d.emitAll c).branch make t).codeAt i = d.codeAt i ++ (c ++ [make l]) := by
  by_cases h : d.InRange
  · rw [codeAt_branch make (h.emitAll c), codeAt_emitAll h, current_emitAll]
    split
    · exact .inr ⟨_, List.append_assoc ..⟩
    · exact .inl rfl
  · left
    have h' : ¬ (d.emitAll c).InRange := by rwa [InRange, size_emitAll, current_emitAll]
    have marked : ¬ ((d.emitAll c).mark t (!(d.emitAll c).isDead)).InRange := by
      rwa [InRange, size_mark]
    rw [branch_eq, codeAt_emit_of_not_inRange marked, codeAt_mark]
    induction c generalizing d with
    | nil => rfl
    | cons x c ih =>
      have apart : ¬ (d.emit x).InRange := by rwa [InRange, size_emit]
      rw [emitAll_cons, ih apart h' marked, codeAt_emit_of_not_inRange h]

end ClassAsm.Draft
