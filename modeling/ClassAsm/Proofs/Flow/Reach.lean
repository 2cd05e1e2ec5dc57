import ClassAsm.Proofs.Flow.Graph

/-! Live segments. A segment that compilation takes for live is one that branches lead to from the
first segment, and no other. All other code is in muted segments, and those are there only if it
has been reported. -/

namespace ClassAsm

/-- A chain of branches leads to the name from the first segment. -/
inductive Reachable (segments : List Segment) : String → Prop where
  | start : Reachable segments Draft.startName
  | branch {s : Segment} {i : Instruction} {l : String} (h : Reachable segments s.name)
      (hs : s ∈ segments) (hi : i ∈ s.code) (hl : i.target? = some l) : Reachable segments l

/-- Unreachable code has been reported since the first warnings. -/
def Reported (before after : Array Warning) : Prop :=
  ∃ new span, after.toList = before.toList ++ new ∧ ⟨.unreachableCode, some span⟩ ∈ new

theorem Reported.mono {before w w' : Array Warning} (h : Reported before w)
    (hw : w.toList <+: w'.toList) : Reported before w' := by
  obtain ⟨new, span, e, hmem⟩ := h
  obtain ⟨more, hm⟩ := hw
  exact ⟨new ++ more, span, by rw [← hm, e, List.append_assoc], List.mem_append_left _ hmem⟩

namespace Draft

/-! Live segments. -/

variable {site : Site} {known : Prop} {before : Array Warning} {d d' : Draft}
  {code : List Instruction} {target : Option Nat}

/-- Branches lead to the segment from the first, those in some part of the code of each segment. -/
inductive LedBy (part : List Instruction → List Instruction) (d : Draft) : Nat → Prop where
  | start : LedBy part d 0
  | branch {i j : Nat} {x : Instruction} (h : LedBy part d j) (hx : x ∈ part (d.codeAt j))
      (hl : x.target? = some (d.segment i).name) (hi : i < d.segments.size) : LedBy part d i

abbrev Led (d : Draft) : Nat → Prop := LedBy id d

theorem LedBy.mono {part : List Instruction → List Instruction} {i : Nat} (h : LedBy part d i)
    (keeps : ∀ {code more : List Instruction}, code <+: more → part code ⊆ part more)
    (size : d.segments.size ≤ d'.segments.size)
    (name : ∀ i < d.segments.size, (d'.segment i).name = (d.segment i).name)
    (code : ∀ i, d.codeAt i <+: d'.codeAt i) : LedBy part d' i := by
  induction h with
  | start => exact .start
  | branch _ hx hl hi ih =>
    exact .branch ih (keeps (code _) hx) (by rw [name _ hi, hl]) (hi.trans_le size)

/-- Code is in segments that are live or muted, and what live code leads to is live. -/
structure Lit (site : Site) (before : Array Warning) (d : Draft) : Prop where
  first : (d.segment 0).isLive = true
  apart : ∀ i, (d.segment i).isMuted = true → (d.segment i).isLive = false
  awake : ∀ i, d.codeAt i ≠ [] → (d.segment i).isLive = true ∨ (d.segment i).isMuted = true
  flows : ∀ i, (d.segment i).isLive = true → ∀ x ∈ d.codeAt i, ∀ l, x.target? = some l →
    ∃ t < d.segments.size, (d.segment t).name = l ∧ (d.segment t).isLive = true
  led : ∀ i, (d.segment i).isLive = true → d.Led i
  dark : ∀ i, (d.segment i).isTargeted = true →
    (d.segment i).isLive = true ∨ ∃ k, (d.segment k).isMuted = true
  told : ∀ i, (d.segment i).isMuted = true → site.options.trimUnreachableCode = false ∧
    (site.options.muteUnreachableCode = false → Reported before d.warnings)
  warnings : before.toList <+: d.warnings.toList

theorem lit_start (labels : Nat) (warnings : Array Warning) :
    Lit site warnings (start labels warnings) := by
  have empty (i : Nat) : (start labels warnings).codeAt i = [] := by cases i <;> rfl
  have unmuted (i : Nat) : ((start labels warnings).segment i).isMuted = false := by
    cases i <;> rfl
  refine ⟨rfl, ?_, fun i h => absurd (empty i) h, ?_, ?_, ?_, ?_, List.prefix_refl _⟩
  · intro i h
    simp [unmuted] at h
  · intro i _ x hx
    simp [empty] at hx
  · intro i h
    cases i with
    | zero => exact .start
    | succ i => cases h
  · intro i h
    cases i <;> cases h
  · intro i h
    simp [unmuted] at h

section

variable (e : Emits d d' code target)

include e

/-- A segment is live from now on if it was, or if code that runs has branched to it. -/
theorem Emits.isLive_or {i : Nat} (hl : (d'.segment i).isLive = true) :
    (d.segment i).isLive = true ∨ target = some i ∧ (d.segment d.current).isLive = true := by
  rw [e.live] at hl
  simpa using hl

theorem Emits.isLive {i : Nat} (hl : (d.segment i).isLive = true) :
    (d'.segment i).isLive = true := by
  rw [e.live, hl]
  rfl

theorem Emits.mem_codeAt {i : Nat} {x : Instruction} (hx : x ∈ d'.codeAt i) :
    x ∈ d.codeAt i ∨ i = d.current ∧ x ∈ code := by
  rw [e.code] at hx
  split at hx
  · next hi => exact (List.mem_append.1 hx).imp id fun new => ⟨hi, new⟩
  · exact .inl hx

end

theorem Lit.unmuted (h : Lit site before d) {t : Nat} (p : Piece known d code (some t))
    (hl : (d.segment d.current).isLive = true) : (d.segment t).isMuted = false := by
  by_contra hm
  have := h.apart _ (p.joint.2 ((Bool.not_eq_false _).mp hm))
  rw [hl] at this
  cases this

theorem Lit.flows_emits (h : Lit site before d) (p : Piece known d code target)
    (e : Emits d d' code target) {i : Nat} (hl : (d'.segment i).isLive = true) {x : Instruction}
    (hx : x ∈ d'.codeAt i) {l : String} (ht : x.target? = some l) :
    ∃ t < d.segments.size, (d'.segment t).name = l ∧ (d'.segment t).isLive = true := by
  rcases e.mem_codeAt hx with old | ⟨rfl, new⟩
  · have live : (d.segment i).isLive = true := by
      rcases e.isLive_or hl with hl | ⟨rfl, run⟩
      · exact hl
      · -- a segment that has just become live has code only if it was live before
        rcases h.awake i (List.ne_nil_of_mem old) with hl | hm
        · exact hl
        · rw [h.unmuted p run] at hm
          cases hm
    obtain ⟨t, hlt, hn, hl⟩ := h.flows i live x old l ht
    exact ⟨t, hlt, by rw [e.name, hn], e.isLive hl⟩
  · have run : (d.segment d.current).isLive = true := (e.isLive_or hl).elim id And.right
    obtain ⟨t, rfl, hj, hn, -⟩ := p.target_eq new ht
    exact ⟨t, hj.lt, by rw [e.name, hn], by rw [e.live, run]; simp⟩

theorem Lit.led_emits (h : Lit site before d) (p : Piece known d code target)
    (e : Emits d d' code target) {i : Nat} (hl : (d'.segment i).isLive = true) : d'.Led i := by
  have led {i : Nat} (hl : d.Led i) : d'.Led i :=
    hl.mono List.IsPrefix.subset e.size.ge (fun i _ => e.name i) fun i => by
      rw [e.code]
      split <;> simp
  rcases e.isLive_or hl with hl | ⟨rfl, run⟩
  · exact led (h.led i hl)
  · obtain ⟨x, hx, hn⟩ := p.branches
    refine .branch (led (h.led _ run)) (x := x) ?_ (by rw [e.name, hn]) ?_
    · rw [e.code, if_pos rfl]
      exact List.mem_append_right _ hx
    · rw [e.size]
      exact p.joint.1.lt

theorem Lit.emits (h : Lit site before d) (ho : d.fallsThrough = true)
    (p : Piece known d code target) (e : Emits d d' code target) : Lit site before d' := by
  have here := (fallsThrough_iff.1 ho).2
  refine ⟨e.isLive h.first, ?_, ?_, ?_, fun i hl => h.led_emits p e hl, ?_, ?_,
    by rw [e.warnings]; exact h.warnings⟩
  · intro i hm
    rw [e.muted] at hm
    by_contra hl
    rcases e.isLive_or ((Bool.not_eq_false _).mp hl) with hl | ⟨rfl, run⟩
    · rw [h.apart i hm] at hl
      cases hl
    · rw [h.unmuted p run] at hm
      cases hm
  · intro i hne
    rw [e.muted]
    rw [e.code] at hne
    split at hne
    · next hi =>
      subst hi
      exact here.imp e.isLive id
    · exact (h.awake i hne).imp e.isLive id
  · intro i hl x hx l ht
    rw [e.size]
    exact h.flows_emits p e hl hx ht
  · intro i ht
    rw [e.targeted] at ht
    simp only [Bool.or_eq_true, decide_eq_true_eq] at ht
    have some {k : Nat} (hm : (d.segment k).isMuted = true) : ∃ k, (d'.segment k).isMuted = true :=
      ⟨k, by rw [e.muted, hm]⟩
    rcases ht with ht | rfl
    · exact (h.dark i ht).imp e.isLive fun ⟨k, hm⟩ => some hm
    · rcases here with hl | hm
      · exact .inl (by rw [e.live, hl]; simp)
      · exact .inr (some hm)
  · intro i hm
    rw [e.muted] at hm
    rw [e.warnings]
    exact h.told i hm

theorem Lit.adds (h : Lit site before d) {stem : String} {muted : Bool}
    (e : Adds d d' stem muted) (hw : d.warnings.toList <+: d'.warnings.toList)
    (why : muted = true → d.isMutedHere = true ∨ site.options.trimUnreachableCode = false ∧
      (site.options.muteUnreachableCode = false → Reports d d')) : Lit site before d' := by
  have live {i : Nat} (hl : (d.segment i).isLive = true) : (d'.segment i).isLive = true := by
    rw [e.isLive, hl]
  refine ⟨live h.first, ?_, ?_, ?_, ?_, ?_, ?_, h.warnings.trans hw⟩
  · intro i hm
    rcases e.segment_or i with ⟨-, -, new⟩ | old
    · rw [new]
    · rw [old] at hm ⊢
      exact h.apart i hm
  · intro i hne
    rw [e.codeAt] at hne
    exact (h.awake i hne).imp live e.isMuted
  · intro i hl x hx l ht
    rw [e.codeAt] at hx
    rw [e.isLive] at hl
    obtain ⟨t, hlt, hn, hl⟩ := h.flows i hl x hx l ht
    exact ⟨t, by rw [e.size]; omega, by rw [e.segment_of_lt hlt, hn], live hl⟩
  · intro i hl
    rw [e.isLive] at hl
    exact (h.led i hl).mono List.IsPrefix.subset (by rw [e.size]; omega)
      (fun i hi => by rw [e.segment_of_lt hi]) fun i => by rw [e.codeAt]
  · intro i ht
    rw [e.isTargeted] at ht
    exact (h.dark i ht).imp live (Exists.imp fun _ => e.isMuted)
  · intro i hm
    have mono (t : site.options.trimUnreachableCode = false ∧
        (site.options.muteUnreachableCode = false → Reported before d.warnings)) :
        site.options.trimUnreachableCode = false ∧
          (site.options.muteUnreachableCode = false → Reported before d'.warnings) :=
      ⟨t.1, fun hon => (t.2 hon).mono hw⟩
    rcases e.segment_or i with ⟨-, -, new⟩ | old
    · rw [new] at hm
      rcases why hm with here | ⟨trim, told⟩
      · exact mono (h.told _ here)
      · refine ⟨trim, fun hon => ?_⟩
        obtain ⟨span, hs⟩ := told hon
        obtain ⟨before', hn⟩ := h.warnings
        exact ⟨before' ++ [⟨.unreachableCode, some span⟩], span, by simp [hs, ← hn], by simp⟩
    · rw [old] at hm
      exact mono (h.told i hm)

theorem Lit.effect (h : Lit site before d) (e : Effect site known d d') :
    Lit site before d' := by
  cases e with
  | quiet segments _ _ _ hw =>
    have same (i : Nat) : d'.segment i = d.segment i := by simp [segment, segments]
    refine ⟨by rw [same, h.first], ?_, ?_, ?_, ?_, ?_, ?_, h.warnings.trans hw⟩
    · intro i
      rw [same]
      exact h.apart i
    · intro i
      rw [codeAt, same]
      exact h.awake i
    · intro i hl x hx l ht
      rw [same] at hl
      rw [codeAt, same] at hx
      obtain ⟨t, hlt, hn, hl⟩ := h.flows i hl x hx l ht
      exact ⟨t, segments ▸ hlt, by rw [same, hn], by rw [same, hl]⟩
    · intro i hl
      rw [same] at hl
      exact (h.led i hl).mono List.IsPrefix.subset (by rw [segments]) (fun i _ => by rw [same])
        fun i => by rw [codeAt, codeAt, same]
    · intro i ht
      rw [same] at ht
      simpa only [same] using h.dark i ht
    · intro i hm
      rw [same] at hm
      exact ⟨(h.told i hm).1, fun hon => ((h.told i hm).2 hon).mono hw⟩
  | emits ho p e => exact h.emits ho p e
  | adds e hw why => exact h.adds e hw why

theorem lit_of_edits {labels : Nat} {warnings : Array Warning}
    (h : Edits site known (start labels warnings) d) : Lit site warnings d :=
  h.keeps (fun _ _ _ hl he => hl.effect he) (inRange_start _ _) (lit_start _ _)

theorem Lit.mem_kept_of_isLive {low : Nat} (lit : Lit site before d) (shaped : Shaped low d)
    (hr : d.InRange) {i : Nat} (hi : (d.segment i).isLive = true) : i ∈ d.kept := by
  cases lit.led i hi with
  | start =>
    obtain ⟨rest, hk⟩ := kept_eq_cons hr
    rw [hk]
    exact List.mem_cons_self
  | branch _ hx hl lt =>
    obtain ⟨t, joint, name, targeted⟩ := shaped.targets _ _ hx _ hl
    obtain rfl := shaped.distinct t joint.lt i lt name
    exact mem_kept_of_isTargeted lt targeted

end Draft
end ClassAsm
