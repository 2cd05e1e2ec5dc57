import ClassAsm.Proofs.Method.Step

/-! What an edit does to the segments: nothing, or it emits a piece of code into the current
segment, or it adds one segment. A piece is straight code with at most one branch or return, at its
end. -/

namespace ClassAsm.Draft

open Scope (Leaves)

/-- The code that one edit emits, and the segment that it branches to. -/
inductive Piece (known : Prop) (d : Draft) : List Instruction → Option Nat → Prop where
  | code {c : List Instruction} (h : Leaves c known 0) : Piece known d c none
  | leave {c : List Instruction} {hasValue : Bool} (h : Leaves c known hasValue.toNat) :
      Piece known d (c ++ [.ret hasValue]) none
  | jump {c : List Instruction} {make : String → Instruction} {n t : Nat} (hj : Jump make n)
      (h : Leaves c known n) (ht : d.IsJoint t)
      (hm : (d.segment t).isMuted = true → d.isMutedHere = true) :
      Piece known d (c ++ [make (d.segment t).name]) (some t)

/-- The code goes to the current segment, and the target is live if that segment is. -/
structure Emits (d d' : Draft) (code : List Instruction) (target : Option Nat) : Prop where
  size : d'.segments.size = d.segments.size
  current : d'.current = d.current
  labels : d'.labels = d.labels
  warnings : d'.warnings = d.warnings
  depth : d'.depth = (d.emitAll code).depth
  peak : d'.peak = (d.emitAll code).peak
  name : ∀ i, (d'.segment i).name = (d.segment i).name
  muted : ∀ i, (d'.segment i).isMuted = (d.segment i).isMuted
  live : ∀ i, (d'.segment i).isLive =
    ((d.segment i).isLive || (decide (target = some i) && (d.segment d.current).isLive))
  targeted : ∀ i, (d'.segment i).isTargeted = ((d.segment i).isTargeted || decide (target = some i))
  code : ∀ i, d'.codeAt i = if i = d.current then d.codeAt i ++ code else d.codeAt i

/-- There is one more segment, which is empty. -/
structure Adds (d d' : Draft) (stem : String) (muted : Bool) : Prop where
  size : d'.segments.size = d.segments.size + 1
  labels : d'.labels = d.labels + 1
  depth : d'.depth = d.depth
  peak : d'.peak = d.peak
  segment : ∀ i, d'.segment i =
    if i = d.segments.size then { name := label stem d.labels, isMuted := muted } else d.segment i

namespace Adds

variable {d d' : Draft} {stem : String} {muted : Bool} (h : Adds d d' stem muted) {i : Nat}

include h

theorem segment_of_lt (hi : i < d.segments.size) : d'.segment i = d.segment i := by
  rw [h.segment, if_neg (Nat.ne_of_lt hi)]

/-- A segment is the new one or an old one. -/
theorem segment_or (i : Nat) : i = d.segments.size ∧ d.segment i = default ∧
    d'.segment i = { name := label stem d.labels, isMuted := muted } ∨
    d'.segment i = d.segment i := by
  by_cases hi : i = d.segments.size
  · refine .inl ⟨hi, ?_, by rw [h.segment, if_pos hi]⟩
    simp [Draft.segment, hi]
  · exact .inr (by rw [h.segment, if_neg hi])

theorem isLive : (d'.segment i).isLive = (d.segment i).isLive := by
  rcases h.segment_or i with ⟨-, unseen, new⟩ | old
  · rw [unseen, new]
    rfl
  · rw [old]

theorem isTargeted : (d'.segment i).isTargeted = (d.segment i).isTargeted := by
  rcases h.segment_or i with ⟨-, unseen, new⟩ | old
  · rw [unseen, new]
    rfl
  · rw [old]

theorem codeAt : d'.codeAt i = d.codeAt i := by
  rw [Draft.codeAt, Draft.codeAt]
  rcases h.segment_or i with ⟨-, unseen, new⟩ | old
  · rw [unseen, new]
    rfl
  · rw [old]

theorem isMuted (hm : (d.segment i).isMuted = true) : (d'.segment i).isMuted = true := by
  rcases h.segment_or i with ⟨-, unseen, -⟩ | old
  · rw [unseen] at hm
    cases hm
  · rw [old, hm]

end Adds

/-- The draft has a warning about unreachable code that the other has not. -/
def Reports (d d' : Draft) : Prop :=
  ∃ span, d'.warnings = d.warnings.push ⟨.unreachableCode, some span⟩

inductive Effect (site : Site) (known : Prop) (d d' : Draft) : Prop where
  | quiet (segments : d'.segments = d.segments) (labels : d'.labels = d.labels)
      (depth : d'.depth = d.depth) (peak : d'.peak = d.peak)
      (warnings : d.warnings.toList <+: d'.warnings.toList)
  | emits {code : List Instruction} {target : Option Nat} (open' : d.fallsThrough = true)
      (p : Piece known d code target) (h : Emits d d' code target)
  | adds {stem : String} {muted : Bool} (h : Adds d d' stem muted)
      (warnings : d.warnings.toList <+: d'.warnings.toList)
      (why : muted = true → d.isMutedHere = true ∨ site.options.trimUnreachableCode = false ∧
        (site.options.muteUnreachableCode = false → Reports d d'))

variable {site : Site} {known : Prop} {d d' : Draft} {code : List Instruction}
  {target : Option Nat}

theorem emits_emitAll (hr : d.InRange) (c : List Instruction) : Emits d (d.emitAll c) c none := by
  have f := @emitAll_sameFrame d c
  exact ⟨f.size, f.current, f.labels, f.warnings, rfl, rfl, f.name, f.muted,
    fun i => by simp [f.live], fun i => by simp [f.targeted], fun i => codeAt_emitAll hr c⟩

theorem emits_branch (hr : d.InRange) (ho : d.fallsThrough = true) {c : List Instruction}
    (hc : Straight c) {t : Nat} (ht : t < d.segments.size) (make : String → Instruction) :
    Emits d ((d.emitAll c).branch make t) (c ++ [make (d.segment t).name]) (some t) := by
  have f := @emitAll_sameFrame d c
  have hr' := hr.emitAll c
  have ht' : t < (d.emitAll c).segments.size := by rw [f.size]; exact ht
  have dead := isDead_eq_not_isLive (fallsThrough_emitAll hr hc ho)
  rw [f.live, f.current] at dead
  refine ⟨by simp, by simp, by simp [f.labels], by simp [f.warnings], ?_, ?_,
    fun i => by simp [f.name], fun i => by simp [f.muted], ?_, ?_, ?_⟩
  · rw [emitAll_append, branch_eq, f.name]
    rfl
  · rw [emitAll_append, branch_eq, f.name]
    rfl
  · intro i
    rw [isLive_branch _ ht', f.live, dead, Bool.not_not]
    simp [eq_comm]
  · intro i
    rw [isTargeted_branch _ ht', f.targeted]
    simp [eq_comm]
  · intro i
    rw [codeAt_branch _ hr', f.current, f.name, codeAt_emitAll hr]
    split <;> simp

theorem adds_spawnFresh (stem : String) (muted : Bool) :
    Adds d (d.spawnFresh stem muted).2 stem (muted || d.isMutedHere) :=
  ⟨size_spawnFresh _ _, rfl, rfl, rfl, fun _ => segment_spawnFresh _ _⟩

theorem adds_enterUnreachable : Adds d d.enterUnreachable "Unreachable" true :=
  ⟨size_spawnFresh _ _, rfl, rfl, rfl, fun _ => segment_enterUnreachable⟩

theorem Edit.effect (hr : d.InRange) (h : Edit site known d d') : Effect site known d d' := by
  cases h with
  | warn c span => exact .quiet rfl rfl rfl rfl (by simp [Draft.warn])
  | bind name type => exact .quiet rfl rfl rfl rfl (List.prefix_refl _)
  | switch lt empty => exact .quiet rfl rfl rfl rfl (List.prefix_refl _)
  | code ho h => exact .emits ho (.code h) (emits_emitAll hr _)
  | @leave c hasValue ho h =>
    apply Effect.emits ho (.leave h)
    have := emits_emitAll hr (c ++ [.ret hasValue])
    rwa [emitAll_append] at this
  | jump hj ho h ht hm => exact .emits ho (.jump hj h ht hm) (emits_branch hr ho h.straight ht.lt _)
  | spawn h =>
    exact .adds (adds_spawnFresh _ _) (List.prefix_refl _) fun hm => .inl (by simpa using hm)
  | enter h =>
    exact .adds adds_enterUnreachable (List.prefix_refl _) fun _ => .inl h
  | report span trim dead =>
    split
    · next hmute =>
      exact .adds adds_enterUnreachable (List.prefix_refl _)
        fun _ => .inr ⟨trim, fun h => by simp [hmute] at h⟩
    · have adds := @adds_enterUnreachable (d.warn .unreachableCode span)
      exact .adds ⟨adds.size, adds.labels, adds.depth, adds.peak, adds.segment⟩
        (grows_warn _ _).warnings fun _ => .inr ⟨trim, fun _ => ⟨span, rfl⟩⟩

theorem Edit.inRange (hr : d.InRange) (h : Edit site known d d') : d'.InRange := by
  cases h with
  | warn | bind => exact hr
  | code => exact hr.emitAll _
  | leave => exact (hr.emitAll _).emit _
  | jump => exact (hr.emitAll _).branch _
  | spawn => exact hr.spawnFresh _ _
  | enter => exact advances_enterUnreachable.inRange
  | report => exact advances_enterUnreachable.inRange
  | switch lt => exact lt

/-- What every effect keeps holds after all edits. -/
theorem Edits.keeps {P : Draft → Prop}
    (step : ∀ d d', d.InRange → P d → Effect site known d d' → P d') (hr : d.InRange) (hp : P d)
    (h : Edits site known d d') : P d' := by
  have both : d'.InRange ∧ P d' := by
    induction h with
    | refl => exact ⟨hr, hp⟩
    | tail _ he ih => exact ⟨he.inRange ih.1, step _ _ ih.1 ih.2 (he.effect ih.1)⟩
  exact both.2

/-! Pieces. -/

theorem Jump.target? {make : String → Instruction} {n : Nat} (h : Jump make n) (l : String) :
    (make l).target? = some l := by
  cases h <;> rfl

theorem target?_of_straight {c : List Instruction} (hc : Straight c) {x : Instruction}
    (hx : x ∈ c) :
    x.target? = none := by
  cases ht : x.target? with
  | none => rfl
  | some l =>
    have := Instruction.isControl_of_target? ht
    rw [hc x hx] at this
    cases this

theorem Piece.dropLast (p : Piece known d code target) :
    ∀ x ∈ code.dropLast, x.isTerminator = false := by
  intro x hx
  cases p with
  | code h => exact not_isTerminator_of_straight h.straight x (List.mem_of_mem_dropLast hx)
  | leave h | jump _ h =>
    rw [List.dropLast_concat] at hx
    exact not_isTerminator_of_straight h.straight x hx

theorem Piece.target_eq (p : Piece known d code target) {x : Instruction} (hx : x ∈ code)
    {l : String} (hl : x.target? = some l) :
    ∃ t, target = some t ∧ d.IsJoint t ∧ (d.segment t).name = l ∧
      ((d.segment t).isMuted = true → d.isMutedHere = true) := by
  cases p with
  | code h => simp [target?_of_straight h.straight hx] at hl
  | leave h =>
    rcases List.mem_append.1 hx with hx | hx
    · simp [target?_of_straight h.straight hx] at hl
    · rw [List.mem_singleton.1 hx] at hl
      cases hl
  | jump hj h ht hm =>
    rcases List.mem_append.1 hx with hx | hx
    · simp [target?_of_straight h.straight hx] at hl
    · rw [List.mem_singleton.1 hx, hj.target?] at hl
      exact ⟨_, rfl, ht, Option.some.inj hl, hm⟩

theorem Piece.branches {t : Nat} (p : Piece known d code (some t)) :
    ∃ x ∈ code, x.target? = some (d.segment t).name := by
  cases p with
  | jump hj => exact ⟨_, by simp, hj.target? _⟩

theorem Piece.joint {t : Nat} (p : Piece known d code (some t)) :
    d.IsJoint t ∧ ((d.segment t).isMuted = true → d.isMutedHere = true) := by
  cases p with
  | jump _ _ ht hm => exact ⟨ht, hm⟩

end ClassAsm.Draft
