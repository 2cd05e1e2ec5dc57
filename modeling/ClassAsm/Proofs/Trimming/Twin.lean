import ClassAsm.Proofs.Flow.Reach
import ClassAsm.Proofs.Trimming.Weave
import ClassAsm.Proofs.Trimming.Scope

/-! Two drafts of one method, the whole and the trimmed one. Segments of the two belong together in
pairs; the labels and slots of a pair differ, and dropped code is missing. A change that both drafts
make keeps this, and so does code that control cannot reach in the whole draft alone. -/

namespace ClassAsm.Draft

/-! A draft in the course of a compilation. -/

/-- A draft that edits have made. -/
structure Fair (site : Site) (d : Draft) : Prop where
  edits : ∃ labels warnings, Edits site False (start labels warnings) d
  inRange : d.InRange

variable {o : Options} {site site' : Site} {d d' e e' : Draft} {known : Prop}

theorem Fair.step (h : Fair site d) (hs : Step site False d e) : Fair site e := by
  obtain ⟨⟨labels, warnings, edits⟩, -⟩ := h
  exact ⟨⟨labels, warnings, edits.trans hs.edits⟩, hs.inRange⟩

theorem Fair.start (site : Site) (labels : Nat) (warnings : Array Warning) :
    Fair site (start labels warnings) :=
  ⟨⟨labels, warnings, .refl⟩, inRange_start _ _⟩

theorem Fair.lit (h : Fair site d) : ∃ before, Lit site before d := by
  obtain ⟨⟨labels, warnings, edits⟩, -⟩ := h
  exact ⟨warnings, lit_of_edits edits⟩

theorem Fair.shaped (h : Fair site d) : ∃ low, Shaped low d := by
  obtain ⟨⟨labels, warnings, edits⟩, -⟩ := h
  exact ⟨labels, shaped_of_edits edits⟩

theorem Fair.isLive_of_isMuted (h : Fair site d) {i : Nat} (hm : (d.segment i).isMuted = true) :
    (d.segment i).isLive = false := by
  obtain ⟨_, lit⟩ := h.lit
  exact lit.apart i hm

theorem Fair.unmuted (h : Fair site d) (on : site.options.trimUnreachableCode = true) (i : Nat) :
    (d.segment i).isMuted = false := by
  obtain ⟨_, lit⟩ := h.lit
  by_contra hm
  rw [(lit.told i ((Bool.not_eq_false _).mp hm)).1] at on
  cases on

theorem Fair.codeAt_eq_nil (h : Fair site d) {i : Nat} (hl : (d.segment i).isLive = false)
    (hm : (d.segment i).isMuted = false) : d.codeAt i = [] := by
  obtain ⟨_, lit⟩ := h.lit
  by_contra hc
  rcases lit.awake i hc with hl' | hm'
  · rw [hl] at hl'
    cases hl'
  · rw [hm] at hm'
    cases hm'

/-! What the whole draft does alone. -/

/-- Nothing has changed that control can reach. -/
structure Aside (d e : Draft) : Prop where
  size : d.segments.size ≤ e.segments.size
  name : ∀ i < d.segments.size, (e.segment i).name = (d.segment i).name
  muted : ∀ i < d.segments.size, (e.segment i).isMuted = (d.segment i).isMuted
  live : ∀ i < d.segments.size, (e.segment i).isLive = (d.segment i).isLive
  code : ∀ i < d.segments.size, (d.segment i).isMuted = false → e.codeAt i = d.codeAt i
  locals : ∀ n x, d.locals.find? n = some x → e.locals.find? n = some x

theorem Aside.trans {a b c : Draft} (h : Aside a b) (h' : Aside b c) : Aside a c where
  size := h.size.trans h'.size
  name i hi := (h'.name i (hi.trans_le h.size)).trans (h.name i hi)
  muted i hi := (h'.muted i (hi.trans_le h.size)).trans (h.muted i hi)
  live i hi := (h'.live i (hi.trans_le h.size)).trans (h.live i hi)
  code i hi hm :=
    (h'.code i (hi.trans_le h.size) (by rw [h.muted i hi, hm])).trans (h.code i hi hm)
  locals n x hx := h'.locals n x (h.locals n x hx)

/-- What comes after muted code does not become live: branches from live code are the old ones. -/
theorem Fair.aside (h : Fair site d) (hm : d.isMutedHere = true) (hs : Step site False d e) :
    Aside d e := by
  obtain ⟨_, lit⟩ := h.lit
  obtain ⟨_, lit'⟩ := (h.step hs).lit
  obtain ⟨_, shaped'⟩ := (h.step hs).shaped
  have grows := hs.grows
  have code (i) (hi : i < d.segments.size) (hu : (d.segment i).isMuted = false) :
      e.codeAt i = d.codeAt i := by
    refine hs.advances.keeps.code i hi fun hc => ?_
    rw [hc] at hu
    rw [isMutedHere, hu] at hm
    cases hm
  have old {i : Nat} (hl : e.Led i) : i < d.segments.size ∧ (d.segment i).isLive = true := by
    induction hl with
    | start => exact ⟨Nat.zero_lt_of_lt h.inRange, lit.first⟩
    | @branch i j x _ hx hl hi ih =>
      obtain ⟨hj, live⟩ := ih
      have unmuted : (d.segment j).isMuted = false := by
        by_contra hm
        rw [lit.apart j ((Bool.not_eq_false _).mp hm)] at live
        cases live
      rw [code j hj unmuted] at hx
      obtain ⟨t, ht, hn, hlive⟩ := lit.flows j live x hx _ hl
      have same : t = i :=
        shaped'.distinct t (ht.trans_le grows.size) i hi (by rw [grows.name t ht, hn])
      exact same ▸ ⟨ht, hlive⟩
  refine ⟨grows.size, grows.name, grows.muted, fun i _ => ?_, code, grows.locals⟩
  cases hl : (d.segment i).isLive with
  | true => exact grows.live i hl
  | false =>
    by_contra hl'
    have live := (old (lit'.led i ((Bool.not_eq_false _).mp hl'))).2
    rw [hl] at live
    cases live

/-- The first segment of code that has just been found to be unreachable. -/
theorem aside_of_adds {stem : String} {muted : Bool} (h : Adds d e stem muted)
    (hl : ∀ n x, d.locals.find? n = some x → e.locals.find? n = some x) : Aside d e where
  size := by rw [h.size]; exact Nat.le_succ _
  name i hi := by rw [h.segment_of_lt hi]
  muted i hi := by rw [h.segment_of_lt hi]
  live i hi := by rw [h.segment_of_lt hi]
  code i _ _ := h.codeAt
  locals := hl

/-! Pairs of segments. -/

/-- Instructions of both drafts that do the same. -/
inductive Alike (P : Nat → Nat → Prop) (d d' : Draft) : Instruction → Instruction → Prop where
  | renames {i i' : Instruction} (h : Renames d.locals d'.locals i i') : Alike P d d' i i'
  | ret (hasValue : Bool) : Alike P d d' (.ret hasValue) (.ret hasValue)
  | jump {make : String → Instruction} {n : Nat} (hj : Jump make n) {i k : Nat} (hp : P i k) :
      Alike P d d' (make (d.segment i).name) (make (d'.segment k).name)

/-- Code that the trimmed method need not have. -/
structure Skippable (o : Options) (d : Draft) (code : List Instruction) : Prop where
  trims : o.trimUselessCode = true
  quiet : ∀ i ∈ code, i.isQuiet = true
  known : Renamed d.locals d.locals code code
  moves : Moves code 0 0

/-- The first is a segment of the whole draft, the second one of the trimmed draft. -/
structure Twin (o : Options) (P : Nat → Nat → Prop) (d d' : Draft) : Prop where
  first : P 0 0
  lt : ∀ i k, P i k → i < d.segments.size ∧ k < d'.segments.size
  unique : ∀ i k j l, P i k → P j l → (i = j ↔ k = l)
  total : ∀ k < d'.segments.size, ∃ i, P i k
  live : ∀ i k, P i k → (d'.segment k).isLive = (d.segment i).isLive
  muted : ∀ i k, P i k → (d'.segment k).isMuted = (d.segment i).isMuted
  ended : ∀ i k, P i k → (d'.segment k).isTerminated = (d.segment i).isTerminated
  /-- What never runs need not agree. -/
  code : ∀ i k, P i k → (d.segment i).isLive = true →
    Weaves (Alike P d d') (Skippable o d) (d.codeAt i) (d'.codeAt k)

variable {P : Nat → Nat → Prop} {code code' : List Instruction} {target target' : Option Nat}

/-- Locals and names of old segments are still there. -/
structure Outlasts (d e : Draft) : Prop where
  name : ∀ i < d.segments.size, (e.segment i).name = (d.segment i).name
  locals : ∀ n x, d.locals.find? n = some x → e.locals.find? n = some x

theorem Alike.outlasts (h : Outlasts d e) (h' : Outlasts d' e') {Q : Nat → Nat → Prop}
    (hpq : ∀ i k, P i k → Q i k)
    (lt : ∀ i k, P i k → i < d.segments.size ∧ k < d'.segments.size) {i i' : Instruction}
    (hi : Alike P d d' i i') : Alike Q e e' i i' := by
  cases hi with
  | renames hr => exact .renames (hr.mono h.locals h'.locals)
  | ret hasValue => exact .ret hasValue
  | jump hj hp =>
    obtain ⟨lt, lt'⟩ := lt _ _ hp
    rw [← h.name _ lt, ← h'.name _ lt']
    exact .jump hj (hpq _ _ hp)

theorem Skippable.outlasts (h : Outlasts d e) (hs : Skippable o d code) : Skippable o e code :=
  ⟨hs.trims, hs.quiet, hs.known.imp fun _ _ hr => hr.mono h.locals h.locals, hs.moves⟩

theorem Twin.weaves (ht : Twin o P d d') (h : Outlasts d e) (h' : Outlasts d' e')
    {Q : Nat → Nat → Prop} (hpq : ∀ i k, P i k → Q i k) {c c' : List Instruction}
    (hc : Weaves (Alike P d d') (Skippable o d) c c') :
    Weaves (Alike Q e e') (Skippable o e) c c' :=
  hc.imp (fun _ _ _ hi => hi.outlasts h h' hpq ht.lt) fun _ hs => hs.outlasts h

theorem Alike.isTerminator {i i' : Instruction} (h : Alike P d d' i i') :
    i'.isTerminator = i.isTerminator := by
  cases h with
  | renames hr =>
    cases hr with
    | slot ha => cases ha <;> rfl
    | same => rfl
  | ret => rfl
  | jump hj => cases hj <;> rfl

theorem ended_append {c c' : List Instruction} (hc : List.Forall₂ (Alike P d d') code code')
    (h : c'.getLast?.any Instruction.isTerminator = c.getLast?.any Instruction.isTerminator) :
    (c' ++ code').getLast?.any Instruction.isTerminator =
      (c ++ code).getLast?.any Instruction.isTerminator := by
  induction hc using List.Forall₂.rec generalizing c c' with
  | nil => simpa using h
  | @cons i i' code code' hi _ ih =>
    rw [List.append_cons c', List.append_cons c]
    apply ih
    simp [hi.isTerminator]

theorem Twin.current_iff (ht : Twin o P d d') (sync : P d.current d'.current) {i k : Nat}
    (hp : P i k) : i = d.current ↔ k = d'.current :=
  ht.unique _ _ _ _ hp sync

theorem Twin.target_iff (ht : Twin o P d d') (hr : Option.Rel P target target') {i k : Nat}
    (hp : P i k) : target = some i ↔ target' = some k := by
  cases hr with
  | none => simp
  | some h =>
    rw [Option.some.injEq, Option.some.injEq]
    exact ht.unique _ _ _ _ h hp

theorem Twin.emits (ht : Twin o P d d') (fair : Fair site d) (fair' : Fair site' d')
    (fairE : Fair site e) (sync : P d.current d'.current) (h : Emits d e code target)
    (h' : Emits d' e' code' target') (hr : Option.Rel P target target')
    (hc : List.Forall₂ (Alike P d d') code code') (hl : e.locals = d.locals)
    (hl' : e'.locals = d'.locals) : Twin o P e e' := by
  have stays : Outlasts d e := ⟨fun i _ => h.name i, fun _ _ => by rw [hl]; exact id⟩
  have stays' : Outlasts d' e' := ⟨fun i _ => h'.name i, fun _ _ => by rw [hl']; exact id⟩
  have weaves {c c'} (hc : Weaves (Alike P d d') (Skippable o d) c c') :=
    ht.weaves stays stays' (fun _ _ => id) hc
  have alike : List.Forall₂ (Alike P e e') code code' :=
    hc.imp fun _ _ hi => hi.outlasts stays stays' (fun _ _ => id) ht.lt
  have live (i k) (hp : P i k) : (e'.segment k).isLive = (e.segment i).isLive := by
    rw [h'.live, h.live, ht.live i k hp, ht.live _ _ sync]
    simp only [ht.target_iff hr hp]
  have muted (i k) (hp : P i k) : (e'.segment k).isMuted = (e.segment i).isMuted := by
    rw [h'.muted, h.muted, ht.muted i k hp]
  refine ⟨ht.first, ?_, ht.unique, ?_, live, muted, ?_, ?_⟩
  · intro i k hp
    rw [h.size, h'.size]
    exact ht.lt i k hp
  · intro k hk
    rw [h'.size] at hk
    exact ht.total k hk
  · intro i k hp
    have before := ht.ended i k hp
    rw [isTerminated_segment, isTerminated_segment] at before ⊢
    rw [h.code, h'.code]
    by_cases hi : i = d.current
    · rw [if_pos hi, if_pos ((ht.current_iff sync hp).1 hi)]
      exact ended_append hc before
    · rw [if_neg hi, if_neg fun hk => hi ((ht.current_iff sync hp).2 hk)]
      exact before
  · intro i k hp run
    cases hd : (d.segment i).isLive with
    | true =>
      have old := weaves (ht.code i k hp hd)
      rw [h.code, h'.code]
      by_cases hi : i = d.current
      · rw [if_pos hi, if_pos ((ht.current_iff sync hp).1 hi)]
        exact old.append (.of_forall₂ alike)
      · rw [if_neg hi, if_neg fun hk => hi ((ht.current_iff sync hp).2 hk)]
        exact old
    | false =>
      -- a segment that has just become live is still empty
      have unmuted : (d.segment i).isMuted = false := by
        by_contra hm
        rw [← h.muted, Bool.not_eq_false] at hm
        rw [fairE.isLive_of_isMuted hm] at run
        cases run
      have other : i ≠ d.current := by
        rintro rfl
        rw [h.live, hd] at run
        simp at run
      have other' : k ≠ d'.current := fun hk => other ((ht.current_iff sync hp).2 hk)
      rw [h.code, h'.code, if_neg other, if_neg other', fair.codeAt_eq_nil hd unmuted,
        fair'.codeAt_eq_nil (by rw [ht.live i k hp, hd]) (by rw [ht.muted i k hp, unmuted])]
      exact .nil

theorem Twin.skips (ht : Twin o P d d') (ho : d.fallsThrough = true) (h : Emits d e code none)
    (hq : ∀ x ∈ code, x.isTerminator = false)
    (hs : (d.segment d.current).isLive = true → Skippable o d code) (hl : e.locals = d.locals) :
    Twin o P e d' := by
  have stays : Outlasts d e := ⟨fun i _ => h.name i, fun _ _ => by rw [hl]; exact id⟩
  have same : Outlasts d' d' := ⟨fun _ _ => rfl, fun _ _ => id⟩
  have live (i) : (e.segment i).isLive = (d.segment i).isLive := by
    rw [h.live]
    simp
  refine ⟨ht.first, ?_, ht.unique, ht.total, ?_, ?_, ?_, ?_⟩
  · intro i k hp
    rw [h.size]
    exact ht.lt i k hp
  · intro i k hp
    rw [live, ht.live i k hp]
  · intro i k hp
    rw [h.muted, ht.muted i k hp]
  · intro i k hp
    rw [ht.ended i k hp]
    by_cases hi : i = d.current
    · subst hi
      have open' := (fallsThrough_iff.1 ho).1
      rw [open', isTerminated_append (by rw [h.code, if_pos rfl]) hq open']
    · rw [isTerminated_segment, isTerminated_segment, h.code, if_neg hi]
  · intro i k hp run
    rw [live] at run
    have old := ht.weaves stays same (fun _ _ => id) (ht.code i k hp run)
    rw [h.code]
    by_cases hi : i = d.current
    · subst hi
      rw [if_pos rfl]
      simpa using old.append (.of_skips ((hs run).outlasts stays))
    · rw [if_neg hi]
      exact old

def morePairs (P : Nat → Nat → Prop) (d d' : Draft) (i k : Nat) : Prop :=
  P i k ∨ i = d.segments.size ∧ k = d'.segments.size

theorem Twin.adds (ht : Twin o P d d') {stem stem' : String} {muted : Bool}
    (h : Adds d e stem muted) (h' : Adds d' e' stem' muted) (hl : e.locals = d.locals)
    (hl' : e'.locals = d'.locals) : Twin o (morePairs P d d') e e' := by
  have stays : Outlasts d e :=
    ⟨fun i hi => by rw [h.segment_of_lt hi], fun _ _ => by rw [hl]; exact id⟩
  have stays' : Outlasts d' e' :=
    ⟨fun i hi => by rw [h'.segment_of_lt hi], fun _ _ => by rw [hl']; exact id⟩
  have new : e.segment d.segments.size = { name := label stem d.labels, isMuted := muted } := by
    rw [h.segment, if_pos rfl]
  have new' : e'.segment d'.segments.size =
      { name := label stem' d'.labels, isMuted := muted } := by
    rw [h'.segment, if_pos rfl]
  have old {i k : Nat} (hp : P i k) : e.segment i = d.segment i ∧ e'.segment k = d'.segment k :=
    ⟨h.segment_of_lt (ht.lt i k hp).1, h'.segment_of_lt (ht.lt i k hp).2⟩
  refine ⟨.inl ht.first, ?_, ?_, ?_, ?_, ?_, ?_, ?_⟩
  · rintro i k (hp | ⟨rfl, rfl⟩)
    · have := ht.lt i k hp
      rw [h.size, h'.size]
      omega
    · rw [h.size, h'.size]
      omega
  · rintro i k j l (hp | ⟨rfl, rfl⟩) (hq | ⟨rfl, rfl⟩)
    · exact ht.unique i k j l hp hq
    · have := ht.lt i k hp
      omega
    · have := ht.lt j l hq
      omega
    · simp
  · intro k hk
    rw [h'.size] at hk
    rcases Nat.lt_succ_iff_lt_or_eq.1 hk with hk | rfl
    · obtain ⟨i, hp⟩ := ht.total k hk
      exact ⟨i, .inl hp⟩
    · exact ⟨_, .inr ⟨rfl, rfl⟩⟩
  · rintro i k (hp | ⟨rfl, rfl⟩)
    · rw [(old hp).1, (old hp).2, ht.live i k hp]
    · rw [new, new']
  · rintro i k (hp | ⟨rfl, rfl⟩)
    · rw [(old hp).1, (old hp).2, ht.muted i k hp]
    · rw [new, new']
  · rintro i k (hp | ⟨rfl, rfl⟩)
    · rw [(old hp).1, (old hp).2, ht.ended i k hp]
    · rw [new, new']
      rfl
  · rintro i k (hp | ⟨rfl, rfl⟩) run
    · rw [(old hp).1] at run
      rw [h.codeAt, h'.codeAt]
      exact ht.weaves stays stays' (fun _ _ => .inl) (ht.code i k hp run)
    · rw [new] at run
      cases run

theorem Twin.quiet (ht : Twin o P d d') (hs : e.segments = d.segments)
    (hs' : e'.segments = d'.segments) (stays : Outlasts d e) (stays' : Outlasts d' e') :
    Twin o P e e' := by
  have same (i) : e.segment i = d.segment i := by rw [segment, segment, hs]
  have same' (k) : e'.segment k = d'.segment k := by rw [segment, segment, hs']
  refine ⟨ht.first, ?_, ht.unique, ?_, ?_, ?_, ?_, ?_⟩
  · rw [hs, hs']
    exact ht.lt
  · rw [hs']
    exact ht.total
  · intro i k hp
    rw [same, same', ht.live i k hp]
  · intro i k hp
    rw [same, same', ht.muted i k hp]
  · intro i k hp
    rw [same, same', ht.ended i k hp]
  · intro i k hp run
    rw [same] at run
    rw [codeAt, codeAt, same, same']
    exact ht.weaves stays stays' (fun _ _ => id) (ht.code i k hp run)

theorem Twin.aside (ht : Twin o P d d') (h : Aside d e)
    (unmuted : ∀ k, (d'.segment k).isMuted = false) : Twin o P e d' := by
  have stays : Outlasts d e := ⟨h.name, h.locals⟩
  have code (i k) (hp : P i k) : e.codeAt i = d.codeAt i :=
    h.code i (ht.lt i k hp).1 (by rw [← ht.muted i k hp, unmuted])
  refine ⟨ht.first, ?_, ht.unique, ht.total, ?_, ?_, ?_, ?_⟩
  · intro i k hp
    exact ⟨(ht.lt i k hp).1.trans_le h.size, (ht.lt i k hp).2⟩
  · intro i k hp
    rw [h.live i (ht.lt i k hp).1, ht.live i k hp]
  · intro i k hp
    rw [h.muted i (ht.lt i k hp).1, ht.muted i k hp]
  · intro i k hp
    rw [ht.ended i k hp, isTerminated_segment, isTerminated_segment, code i k hp]
  · intro i k hp run
    rw [h.live i (ht.lt i k hp).1] at run
    rw [code i k hp]
    exact ht.weaves stays ⟨fun _ _ => rfl, fun _ _ => id⟩ (fun _ _ => id) (ht.code i k hp run)

end ClassAsm.Draft
