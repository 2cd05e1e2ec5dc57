import ClassAsm.Proofs.Code.Operands
import ClassAsm.Proofs.Method.Run

/-! The changes that a compilation is made of. Every statement is a chain of a few kinds of edits,
and an edit says under which conditions it is made: code goes only to the end of an open segment
that is live or muted, a draft is switched only to an empty segment, and only muted code branches to
a muted segment. An invariant that each edit keeps holds of every method. -/

namespace ClassAsm.Draft

open Scope (Leaves)

/-- A branch with the number of operands that it takes. -/
inductive Jump : (String → Instruction) → Nat → Prop where
  | always : Jump .br 0
  | ifTrue : Jump .brtrue 1
  | ifFalse : Jump .brfalse 1

/-- A segment that statements branch to; nothing branches to unreachable code. -/
structure IsJoint (d : Draft) (t : Nat) : Prop where
  lt : t < d.segments.size
  name : ∃ stem n, (d.segment t).name = label stem n ∧ stem ≠ "Unreachable"

def isMutedHere (d : Draft) : Bool := (d.segment d.current).isMuted

/-- What is known of operands is needed only if `known` holds. -/
inductive Edit (site : Site) (known : Prop) : Draft → Draft → Prop where
  | warn {d : Draft} (c : Concern) (span : Span) : Edit site known d (d.warn c span)
  | bind {d : Draft} {name : String} (type : TypeRef) (new : d.locals.find? name = none) :
      Edit site known d (d.addLocal name type)
  | code {d : Draft} {c : List Instruction} (open' : d.fallsThrough = true)
      (h : Leaves c known 0) : Edit site known d (d.emitAll c)
  | leave {d : Draft} {c : List Instruction} {hasValue : Bool} (open' : d.fallsThrough = true)
      (h : Leaves c known hasValue.toNat) :
      Edit site known d ((d.emitAll c).emit (.ret hasValue))
  | jump {d : Draft} {c : List Instruction} {make : String → Instruction} {n t : Nat}
      (hj : Jump make n) (open' : d.fallsThrough = true) (h : Leaves c known n)
      (ht : d.IsJoint t) (hm : (d.segment t).isMuted = true → d.isMutedHere = true) :
      Edit site known d ((d.emitAll c).branch make t)
  | spawn {d : Draft} {stem : String} (h : stem ≠ "Unreachable") :
      Edit site known d (d.spawnFresh stem false).2
  /-- One more segment inside code that has been reported. -/
  | enter {d : Draft} (h : d.isMutedHere = true) : Edit site known d d.enterUnreachable
  /-- The first segment of code that is reported here. -/
  | report {d : Draft} (span : Span) (trim : site.options.trimUnreachableCode = false)
      (dead : d.isDead = true) :
      Edit site known d
        (if site.options.muteUnreachableCode then d
          else d.warn .unreachableCode span).enterUnreachable
  | switch {d : Draft} {t : Nat} (lt : t < d.segments.size) (empty : d.codeAt t = []) :
      Edit site known d (d.switchTo t)

abbrev Edits (site : Site) (known : Prop) : Draft → Draft → Prop :=
  Relation.ReflTransGen (Edit site known)

/-! Open segments. -/

variable {d : Draft} {t : Nat}

theorem fallsThrough_iff :
    d.fallsThrough = true ↔ (d.segment d.current).isTerminated = false ∧
      ((d.segment d.current).isLive = true ∨ d.isMutedHere = true) := by
  simp [fallsThrough, isMutedHere]

theorem isDead_eq_false_iff :
    d.isDead = false ↔ (d.segment d.current).isTerminated = false ∧
      (d.segment d.current).isLive = true := by
  simp [isDead]

theorem isDead_eq_not_isLive (h : d.fallsThrough = true) :
    d.isDead = !(d.segment d.current).isLive := by
  simp [isDead, (fallsThrough_iff.1 h).1]

theorem fallsThrough_of_running (h : d.isDead = false) : d.fallsThrough = true := by
  rw [isDead_eq_false_iff] at h
  exact fallsThrough_iff.2 ⟨h.1, .inl h.2⟩

theorem isMutedHere_of_dead (h : d.fallsThrough = true) (hd : d.isDead = true) :
    d.isMutedHere = true := by
  have hl := isDead_eq_not_isLive h
  rw [hd] at hl
  rcases (fallsThrough_iff.1 h).2 with h' | h'
  · simp [h'] at hl
  · exact h'

theorem isTerminated_append {d d' : Draft} {c : List Instruction} {i : Nat}
    (h : d'.codeAt i = d.codeAt i ++ c) (hc : ∀ x ∈ c, x.isTerminator = false)
    (ho : (d.segment i).isTerminated = false) : (d'.segment i).isTerminated = false := by
  rw [isTerminated_segment] at ho ⊢
  rw [h]
  cases c using List.reverseRecOn with
  | nil => simpa using ho
  | append_singleton c x => simp [hc x (by simp)]

theorem not_isTerminator_of_straight {c : List Instruction} (h : Straight c) :
    ∀ x ∈ c, x.isTerminator = false := by
  intro x hx
  by_contra hc
  have := Instruction.isControl_of_isTerminator ((Bool.not_eq_false _).mp hc)
  rw [h x hx] at this
  cases this

/-- Straight code leaves a segment as open as it was. -/
theorem isTerminated_emitAll (hr : d.InRange) {c : List Instruction} (hc : Straight c)
    (ho : (d.segment d.current).isTerminated = false) :
    ((d.emitAll c).segment (d.emitAll c).current).isTerminated = false := by
  rw [current_emitAll]
  exact isTerminated_append (by rw [codeAt_emitAll hr, if_pos rfl])
    (not_isTerminator_of_straight hc) ho

theorem isMutedHere_emitAll (c : List Instruction) : (d.emitAll c).isMutedHere = d.isMutedHere := by
  simp [isMutedHere, current_emitAll, isMuted_emitAll]

theorem fallsThrough_emitAll (hr : d.InRange) {c : List Instruction} (hc : Straight c)
    (h : d.fallsThrough = true) : (d.emitAll c).fallsThrough = true := by
  rw [fallsThrough_iff] at h ⊢
  refine ⟨isTerminated_emitAll hr hc h.1, ?_⟩
  rw [isMutedHere_emitAll, isLive_emitAll, current_emitAll]
  exact h.2

theorem isDead_emitAll (hr : d.InRange) {c : List Instruction} (hc : Straight c)
    (h : d.fallsThrough = true) : (d.emitAll c).isDead = d.isDead := by
  rw [isDead_eq_not_isLive h, isDead_eq_not_isLive (fallsThrough_emitAll hr hc h),
    isLive_emitAll, current_emitAll]

theorem isMutedHere_branch (make : String → Instruction) :
    (d.branch make t).isMutedHere = d.isMutedHere := by
  simp [isMutedHere]

/-- A conditional branch leaves a segment as open as it was. -/
theorem fallsThrough_branch (hr : d.InRange) (ht : t < d.segments.size)
    {make : String → Instruction} (hm : ∀ l, (make l).isTerminator = false)
    (h : d.fallsThrough = true) : (d.branch make t).fallsThrough = true := by
  rw [fallsThrough_iff] at h ⊢
  refine ⟨isTerminated_append (c := [make (d.segment t).name]) ?_ (by simp [hm]) h.1, ?_⟩
  · rw [current_branch, codeAt_branch _ hr, if_pos rfl]
  · rw [isMutedHere_branch, isLive_branch _ ht, current_branch]
    rcases h.2 with hl | hl
    · simp [hl]
    · exact .inr hl

theorem isTerminated_of_empty {i : Nat} (h : d.codeAt i = []) :
    (d.segment i).isTerminated = false := by
  rw [isTerminated_segment, h]
  rfl

theorem segment_enterUnreachable {i : Nat} :
    d.enterUnreachable.segment i =
      if i = d.segments.size then { name := label "Unreachable" d.labels, isMuted := true }
      else d.segment i := by
  rw [enterUnreachable_eq]
  exact segment_spawnFresh _ _

theorem isMutedHere_enterUnreachable : d.enterUnreachable.isMutedHere = true := by
  change (d.enterUnreachable.segment d.segments.size).isMuted = true
  rw [segment_enterUnreachable, if_pos rfl]

theorem fallsThrough_enterUnreachable : d.enterUnreachable.fallsThrough = true := by
  refine fallsThrough_iff.2 ⟨?_, .inr isMutedHere_enterUnreachable⟩
  change (d.enterUnreachable.segment d.segments.size).isTerminated = false
  rw [segment_enterUnreachable, if_pos rfl]
  rfl

/-! What a task leaves alone. -/

/-- The code of the old segments outside `S` stays what it is. -/
structure Keeps (S : Nat → Prop) (d d' : Draft) : Prop where
  grows : Grows d d'
  code : ∀ i < d.segments.size, ¬ S i → d'.codeAt i = d.codeAt i

/-- The segments that came since the first draft are muted. -/
def NewMuted (d d' : Draft) : Prop :=
  ∀ i, d.segments.size ≤ i → i < d'.segments.size → (d'.segment i).isMuted = true

/-- Only the current segment and new ones get code, and the draft goes on in one of these. What
comes after muted code is muted. -/
structure Advances (d d' : Draft) : Prop where
  keeps : Keeps (· = d.current) d d'
  current : d'.current = d.current ∨ d.segments.size ≤ d'.current
  inRange : d'.InRange
  muted : d.isMutedHere = true → d'.isMutedHere = true
  newMuted : d.isMutedHere = true → NewMuted d d'

theorem Keeps.refl {S : Nat → Prop} (d : Draft) : Keeps S d d := ⟨Grows.refl d, fun _ _ _ => rfl⟩

theorem Keeps.trans {S S' : Nat → Prop} {a b c : Draft} (h : Keeps S a b) (h' : Keeps S' b c)
    (hs : ∀ i < a.segments.size, S' i → S i) : Keeps S a c := by
  refine ⟨h.grows.trans h'.grows, ?_⟩
  intro i hi hn
  rw [h'.code i (hi.trans_le h.grows.size) fun hs' => hn (hs i hi hs'), h.code i hi hn]

theorem newMuted_of_size {d' : Draft} (h : d'.segments.size = d.segments.size) : NewMuted d d' :=
  fun _ hi hi' => absurd hi (by omega)

theorem NewMuted.trans {a b c : Draft} (h : NewMuted a b) (h' : NewMuted b c) (hg : Grows b c) :
    NewMuted a c := by
  intro i hi hi'
  by_cases hb : i < b.segments.size
  · rw [hg.muted i hb]
    exact h i hi hb
  · exact h' i (not_lt.1 hb) hi'

theorem Advances.refl (h : d.InRange) : Advances d d :=
  ⟨Keeps.refl d, .inl rfl, h, id, fun _ => newMuted_of_size rfl⟩

theorem Advances.trans {a b c : Draft} (h : Advances a b) (h' : Advances b c) : Advances a c where
  keeps := h.keeps.trans h'.keeps fun i hi hc => by
    have := h.current
    omega
  current := by
    have := h.current
    have := h'.current
    have := h.keeps.grows.size
    omega
  inRange := h'.inRange
  muted hm := h'.muted (h.muted hm)
  newMuted hm := (h.newMuted hm).trans (h'.newMuted (h.muted hm)) h'.keeps.grows

end ClassAsm.Draft
