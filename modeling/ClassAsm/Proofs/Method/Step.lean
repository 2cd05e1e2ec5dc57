import ClassAsm.Proofs.Method.Edit

/-! Every task is a chain of edits. A statement goes on where it started or in a segment of its own,
and touches no other segment that was there before it; so the segments that a loop or a condition
sets up are still empty when they are filled. -/

namespace ClassAsm.Draft

open Scope (Leaves LeavesOne Tame)

/-- Edits that advance a draft. -/
structure Step (site : Site) (known : Prop) (d d' : Draft) : Prop where
  edits : Edits site known d d'
  advances : Advances d d'

variable {site : Site} {known : Prop} {d d' : Draft} {t : Nat}

theorem Step.refl (h : d.InRange) : Step site known d d := ⟨.refl, Advances.refl h⟩

theorem Step.trans {a b c : Draft} (h : Step site known a b) (h' : Step site known b c) :
    Step site known a c :=
  ⟨h.edits.trans h'.edits, h.advances.trans h'.advances⟩

theorem Step.grows (h : Step site known d d') : Grows d d' := h.advances.keeps.grows

theorem Step.inRange (h : Step site known d d') : d'.InRange := h.advances.inRange

theorem IsJoint.grows (h : d.IsJoint t) (hg : Grows d d') : d'.IsJoint t :=
  ⟨h.lt.trans_le hg.size, by rw [hg.name t h.lt]; exact h.name⟩

/-- Switching to a segment that is new since the start. -/
theorem Step.switchTo (h : Step site known d d') (hn : d.segments.size ≤ t)
    (lt : t < d'.segments.size) (empty : d'.codeAt t = [])
    (hm : d.isMutedHere = true → (d'.segment t).isMuted = true) :
    Step site known d (d'.switchTo t) where
  edits := h.edits.tail (.switch lt empty)
  advances :=
    { keeps := ⟨h.grows.trans grows_switchTo, h.advances.keeps.code⟩
      current := .inr hn
      inRange := lt
      muted := hm
      newMuted := h.advances.newMuted }

theorem step_warn (hr : d.InRange) (c : Concern) (span : Span) :
    Step site known d (d.warn c span) where
  edits := .single (.warn c span)
  advances :=
    ⟨⟨grows_warn c span, fun _ _ _ => rfl⟩, .inl rfl, hr, id, fun _ => newMuted_of_size rfl⟩

theorem step_addLocal (hr : d.InRange) {name : String} (type : TypeRef)
    (new : d.locals.find? name = none) : Step site known d (d.addLocal name type) where
  edits := .single (.bind type new)
  advances :=
    ⟨⟨grows_addLocal type new, fun _ _ _ => rfl⟩, .inl rfl, hr, id, fun _ => newMuted_of_size rfl⟩

theorem advances_emitAll (hr : d.InRange) (c : List Instruction) : Advances d (d.emitAll c) where
  keeps := ⟨grows_emitAll hr c, fun i _ hi => by rw [codeAt_emitAll hr, if_neg hi]⟩
  current := .inl (current_emitAll c)
  inRange := hr.emitAll c
  muted := by rw [isMutedHere_emitAll]; exact id
  newMuted _ := newMuted_of_size (size_emitAll c)

theorem step_code (hr : d.InRange) (ho : d.fallsThrough = true) {c : List Instruction}
    (h : Leaves c known 0) : Step site known d (d.emitAll c) :=
  ⟨.single (.code ho h), advances_emitAll hr c⟩

theorem step_leave (hr : d.InRange) (ho : d.fallsThrough = true) {c : List Instruction}
    {hasValue : Bool} (h : Leaves c known hasValue.toNat) :
    Step site known d ((d.emitAll c).emit (.ret hasValue)) :=
  ⟨.single (.leave ho h), (advances_emitAll hr c).trans (advances_emitAll (hr.emitAll c) [_])⟩

theorem step_jump (hr : d.InRange) (ho : d.fallsThrough = true) {c : List Instruction}
    {make : String → Instruction} {n : Nat} (hj : Jump make n) (h : Leaves c known n)
    (ht : d.IsJoint t) (hm : (d.segment t).isMuted = true → d.isMutedHere = true) :
    Step site known d ((d.emitAll c).branch make t) where
  edits := .single (.jump hj ho h ht hm)
  advances := by
    have lt : t < (d.emitAll c).segments.size := by
      rw [size_emitAll]
      exact ht.lt
    apply (advances_emitAll hr c).trans
    have hr' := hr.emitAll c
    exact
      { keeps := ⟨grows_branch hr' lt make, fun i _ hi => by rw [codeAt_branch _ hr', if_neg hi]⟩
        current := .inl rfl
        inRange := hr'.branch make
        muted := by rw [isMutedHere_branch]; exact id
        newMuted := fun _ => newMuted_of_size (size_branch make) }

/-- A branch without operands. -/
theorem step_br (site : Site) (known : Prop) (hr : d.InRange) (ho : d.fallsThrough = true)
    (ht : d.IsJoint t)
    (hm : (d.segment t).isMuted = true → d.isMutedHere = true) :
    Step site known d (d.branch .br t) :=
  step_jump hr ho .always ⟨Straight.nil, fun _ => Moves.nil⟩ ht hm

theorem step_join (site : Site) (known : Prop) (hr : d.InRange) (ht : d.IsJoint t)
    (hm : (d.segment t).isMuted = true → d.isMutedHere = true) :
    Step site known d (d.join t) := by
  unfold join
  split
  · next ho => exact step_br site known hr ho ht hm
  · exact Step.refl hr

theorem grows_join {t : Nat} (hr : d.InRange) (ht : t < d.segments.size) : Grows d (d.join t) := by
  unfold join
  split
  · exact grows_branch hr ht _
  · exact Grows.refl d

theorem isMutedHere_spawnFresh (hr : d.InRange) (stem : String) (m : Bool) :
    (d.spawnFresh stem m).2.isMutedHere = d.isMutedHere := by
  rw [isMutedHere, current_spawnFresh, segment_spawnFresh_of_lt _ _ hr, isMutedHere]

theorem newMuted_spawnFresh {stem : String} {m : Bool} (hm : m = true ∨ d.isMutedHere = true) :
    NewMuted d (d.spawnFresh stem m).2 := by
  intro i hi hi'
  rw [size_spawnFresh] at hi'
  obtain rfl : i = d.segments.size := by omega
  rw [segment_spawnFresh, if_pos rfl]
  rcases hm with rfl | hm
  · rfl
  · simpa [isMutedHere] using .inr hm

theorem step_spawn (hr : d.InRange) {stem : String} (h : stem ≠ "Unreachable") :
    Step site known d (d.spawnFresh stem false).2 where
  edits := .single (.spawn h)
  advances :=
    { keeps := ⟨grows_spawnFresh _ _, fun i _ _ => codeAt_spawnFresh _ _⟩
      current := .inl rfl
      inRange := hr.spawnFresh _ _
      muted := by rw [isMutedHere_spawnFresh hr]; exact id
      newMuted := fun hm => newMuted_spawnFresh (.inr hm) }

/-- The new segment is empty, named after its stem, and muted if the draft was. -/
structure IsNew (d d' : Draft) (t : Nat) : Prop where
  range : d.segments.size ≤ t
  joint : d'.IsJoint t
  empty : d'.codeAt t = []
  muted : (d'.segment t).isMuted = d.isMutedHere

theorem isNew_spawnFresh {stem : String} (h : stem ≠ "Unreachable") :
    IsNew d (d.spawnFresh stem false).2 d.segments.size where
  range := le_rfl
  joint := ⟨by simp, stem, d.labels, by rw [segment_spawnFresh, if_pos rfl], h⟩
  empty := by rw [codeAt, segment_spawnFresh, if_pos rfl]
  muted := by rw [segment_spawnFresh, if_pos rfl]; rfl

/-- A new segment stays so until it is the current one. -/
theorem IsNew.step {a b c : Draft} (h : IsNew a b t) (hs : Step site known b c)
    (hc : t ≠ b.current) : IsNew a c t where
  range := h.range
  joint := h.joint.grows hs.grows
  empty := by rw [hs.advances.keeps.code t h.joint.lt hc, h.empty]
  muted := by rw [hs.grows.muted t h.joint.lt, h.muted]

theorem advances_enterUnreachable : Advances d d.enterUnreachable where
  keeps := ⟨grows_enterUnreachable, fun i _ _ => codeAt_spawnFresh _ _⟩
  current := .inr le_rfl
  inRange := by
    change d.segments.size < (d.spawnFresh "Unreachable" true).2.segments.size
    simp
  muted _ := isMutedHere_enterUnreachable
  newMuted _ := newMuted_spawnFresh (.inl rfl)

/-- A statement that is admitted starts in an open segment. -/
theorem admit_step (known : Prop) (hr : d.InRange) {span : Span} {b : Bool}
    (h : d.admit? site span = (d', b)) :
    Step site known d d' ∧ (b = true → d'.fallsThrough = true) := by
  have reported : Step site known d
      (if site.options.muteUnreachableCode then d else d.warn .unreachableCode span) := by
    split
    · exact Step.refl hr
    · exact step_warn hr _ _
  cases admits h with
  | running hd => exact ⟨Step.refl hr, fun _ => fallsThrough_of_running hd⟩
  | muted hd hm ht => exact ⟨Step.refl hr, fun _ => fallsThrough_iff.2 ⟨ht, .inr hm⟩⟩
  | mutedFresh hd hm ht =>
    exact ⟨⟨.single (.enter hm), advances_enterUnreachable⟩, fun _ => fallsThrough_enterUnreachable⟩
  | dropped hd hm trim => exact ⟨reported, nofun⟩
  | kept hd hm trim =>
    exact ⟨⟨.single (.report span trim hd), reported.advances.trans advances_enterUnreachable⟩,
      fun _ => fallsThrough_enterUnreachable⟩

end ClassAsm.Draft
