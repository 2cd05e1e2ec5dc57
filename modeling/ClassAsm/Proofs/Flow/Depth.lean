import ClassAsm.Proofs.Flow.Graph

/-! The stack of a compiled method. No instruction lacks an operand, the stack is empty after every
branch and return, and the height that a method declares is the greatest that it reaches. -/

namespace ClassAsm

open Instruction

namespace Instruction

/-- The greatest height that code reaches on an empty stack. -/
def highest (code : List Instruction) : Nat := ((heights 0 code).getD []).foldr max 0

/-- Code that always has its operands, and leaves nothing after a branch or a return. -/
structure Settles (code : List Instruction) (hs : List Nat) : Prop where
  heights : heights 0 code = some hs
  control : ∀ p ∈ code.zip hs, p.1.isControl = true → p.2 = 0

end Instruction

/-- A method whose segments run on a stack of a given size, each starting on an empty stack. -/
structure Balanced (segments : List Segment) (maxStack : Nat) : Prop where
  settles : ∀ s ∈ segments, ∃ hs, Settles s.code hs
  maxStack : maxStack = (segments.map fun s => highest s.code).foldr max 0

namespace Instruction

variable {a b : List Instruction} {hs hs' : List Nat}

theorem Settles.highest (h : Settles a hs) : highest a = hs.foldr max 0 := by
  rw [Instruction.highest, h.heights, Option.getD_some]

theorem settles_nil : Settles [] [] := ⟨rfl, nofun⟩

theorem Settles.append (ha : Settles a hs) (he : hs.getLastD 0 = 0) (hb : Settles b hs') :
    Settles (a ++ b) (hs ++ hs') where
  heights := by rw [heights_append, ha.heights, Option.bind_some, he, hb.heights]; rfl
  control p hp := by
    rw [List.zip_append (length_heights ha.heights).symm] at hp
    rcases List.mem_append.1 hp with hp | hp
    · exact ha.control p hp
    · exact hb.control p hp

theorem foldr_max_append (l l' : List Nat) :
    (l ++ l').foldr max 0 = max (l.foldr max 0) (l'.foldr max 0) := by
  induction l with
  | nil => simp
  | cons x l ih => rw [List.cons_append, List.foldr_cons, List.foldr_cons, ih, max_assoc]

theorem foldl_max (l : List Nat) (n : Nat) : l.foldl max n = max n (l.foldr max 0) := by
  induction l generalizing n with
  | nil => simp
  | cons x l ih => rw [List.foldl_cons, ih, List.foldr_cons, max_assoc]

/-- Straight code that leaves operands, with what takes them. -/
theorem settles_of_moves {n : Nat} (hc : Straight a) (hm : Moves a 0 n) :
    ∃ hs, Settles a hs ∧ hs.getLastD 0 = n := by
  obtain ⟨hs, e, l⟩ := hm 0
  refine ⟨hs, ⟨e, ?_⟩, by simpa using l⟩
  intro p hp hctl
  rw [hc _ (List.of_mem_zip hp).1] at hctl
  cases hctl

theorem settles_concat {x : Instruction} {n : Nat} (hc : Straight a) (hm : Moves a 0 n)
    (hx : x.effect = ⟨n, 0⟩) : ∃ hs, Settles (a ++ [x]) (hs ++ [0]) := by
  obtain ⟨hs, h, l⟩ := settles_of_moves hc hm
  refine ⟨hs, ?_, ?_⟩
  · rw [heights_append, h.heights, Option.bind_some, l]
    simp [heights, hx]
  · intro p hp hctl
    rw [List.zip_append (length_heights h.heights).symm] at hp
    rcases List.mem_append.1 hp with hp | hp
    · exact h.control p hp hctl
    · simp only [List.zip_cons_cons, List.zip_nil_left, List.mem_singleton] at hp
      rw [hp]

end Instruction

/-! Drafts. -/

namespace Draft

variable {site : Site} {d d' : Draft} {code : List Instruction} {target : Option Nat}

theorem Jump.effect {make : String → Instruction} {n : Nat} (h : Jump make n) (l : String) :
    (make l).effect = ⟨n, 0⟩ := by
  cases h <;> rfl

theorem Piece.settles (p : Piece True d code target) :
    ∃ hs, Settles code hs ∧ hs.getLastD 0 = 0 := by
  cases p with
  | code h => exact settles_of_moves h.straight (h.moves trivial)
  | leave h =>
    obtain ⟨hs, h⟩ := settles_concat h.straight (h.moves trivial) (x := .ret _) rfl
    exact ⟨_, h, by simp⟩
  | jump hj h =>
    obtain ⟨hs, h⟩ := settles_concat h.straight (h.moves trivial) (hj.effect _)
    exact ⟨_, h, by simp⟩

theorem level_emitAll {hs : List Nat} (h : heights d.depth code = some hs) :
    (d.emitAll code).depth = hs.getLastD d.depth ∧ (d.emitAll code).peak = hs.foldl max d.peak := by
  induction code generalizing d hs with
  | nil =>
    cases h
    exact ⟨rfl, rfl⟩
  | cons x code ih =>
    rw [heights] at h
    split at h
    · obtain ⟨hs', h', rfl⟩ := Option.map_eq_some_iff.1 h
      rw [emitAll_cons, List.getLastD_cons, List.foldl_cons]
      exact ih h'
    · cases h

/-- No operands are left, and the peak is the greatest height in any segment. -/
structure Level (d : Draft) : Prop where
  depth : d.depth = 0
  settles : ∀ i, ∃ hs, Settles (d.codeAt i) hs ∧ hs.getLastD 0 = 0
  le_peak : ∀ i, highest (d.codeAt i) ≤ d.peak
  attained : d.peak = 0 ∨ ∃ i < d.segments.size, highest (d.codeAt i) = d.peak

theorem level_of_empty (hd : d.depth = 0) (hp : d.peak = 0) (h : ∀ i, d.codeAt i = []) :
    Level d where
  depth := hd
  settles i := by
    rw [h]
    exact ⟨[], settles_nil, rfl⟩
  le_peak i := by
    rw [h]
    exact Nat.zero_le _
  attained := .inl hp

theorem Level.emits (h : Level d) (hr : d.InRange) (p : Piece True d code target)
    (e : Emits d d' code target) : Level d' := by
  obtain ⟨hs, hc, hend⟩ := p.settles
  obtain ⟨old, ho, hoend⟩ := h.settles d.current
  have level := level_emitAll (d := d) (by rw [h.depth]; exact hc.heights)
  have new := ho.append hoend hc
  have depth : d'.depth = 0 := by rw [e.depth, level.1, h.depth, hend]
  have peak : d'.peak = max d.peak (highest code) := by
    rw [e.peak, level.2, foldl_max, hc.highest]
  have grown : highest (d.codeAt d.current ++ code) =
      max (highest (d.codeAt d.current)) (highest code) := by
    rw [new.highest, foldr_max_append, ← ho.highest, ← hc.highest]
  have current := h.le_peak d.current
  refine ⟨depth, ?_, ?_, ?_⟩
  · intro i
    rw [e.code]
    split
    · next hi =>
      subst hi
      refine ⟨_, new, ?_⟩
      cases hs using List.reverseRecOn <;> simp_all
    · exact h.settles i
  · intro i
    rw [e.code, peak]
    split
    · next hi =>
      subst hi
      omega
    · exact (h.le_peak i).trans (le_max_left _ _)
  · rw [peak, e.size]
    rcases Nat.lt_or_ge d.peak (highest code) with hlt | hge
    · -- the new code is what reaches highest
      right
      refine ⟨d.current, hr, ?_⟩
      rw [e.code, if_pos rfl]
      omega
    · rw [max_eq_left hge]
      refine h.attained.imp id fun ⟨i, hi, hat⟩ => ⟨i, hi, ?_⟩
      rw [e.code]
      split
      · next hc =>
        subst hc
        omega
      · exact hat

theorem Level.same (h : Level d) (code : ∀ i, d'.codeAt i = d.codeAt i) (hd : d'.depth = d.depth)
    (hp : d'.peak = d.peak) (size : d.segments.size ≤ d'.segments.size) : Level d' where
  depth := hd.trans h.depth
  settles i := by rw [code]; exact h.settles i
  le_peak i := by rw [code, hp]; exact h.le_peak i
  attained := by
    rw [hp]
    exact h.attained.imp id fun ⟨i, hi, hat⟩ => ⟨i, hi.trans_le size, by rw [code, hat]⟩

theorem Level.effect (h : Level d) (hr : d.InRange) (e : Effect site True d d') : Level d' := by
  cases e with
  | quiet segments _ hd hp =>
    exact h.same (fun i => by simp [codeAt, segment, segments]) hd hp (by rw [segments])
  | emits _ p e => exact h.emits hr p e
  | adds e => exact h.same (fun _ => e.codeAt) e.depth e.peak (by rw [e.size]; omega)

theorem level_of_edits {labels : Nat} {warnings : Array Warning}
    (h : Edits site True (start labels warnings) d) : Level d :=
  h.keeps (fun _ _ hr hl he => hl.effect hr he) (inRange_start _ _)
    (level_of_empty rfl rfl fun i => by cases i <;> rfl)

theorem settles_closing (i : Nat) :
    ∃ hs, Settles (d.closing site i) hs ∧ highest (d.closing site i) = 0 := by
  unfold closing
  split
  · exact ⟨[], settles_nil, rfl⟩
  · split
    · exact ⟨[0], ⟨rfl, by simp⟩, rfl⟩
    · exact ⟨[0], ⟨rfl, by simp⟩, rfl⟩

theorem Level.balanced (h : Level d) : Balanced (d.finished site) d.peak := by
  have code (i : Nat) : (∃ hs, Settles (d.closed site i).code hs) ∧
      highest (d.closed site i).code = highest (d.codeAt i) := by
    obtain ⟨hs, ho, hoend⟩ := h.settles i
    obtain ⟨hs', hc, hzero⟩ := @settles_closing site d i
    have both := ho.append hoend hc
    refine ⟨⟨_, both⟩, ?_⟩
    rw [closed, both.highest, foldr_max_append, ← ho.highest, ← hc.highest, hzero]
    simp
  refine ⟨?_, ?_⟩
  · intro s hs
    obtain ⟨i, -, rfl⟩ := List.mem_map.1 hs
    exact (code i).1
  · have tops : ((d.finished site).map fun s => highest s.code) =
        d.kept.map fun i => highest (d.codeAt i) := by
      rw [finished, List.map_map]
      exact List.map_congr_left fun i _ => (code i).2
    rw [tops]
    refine le_antisymm ?_ (List.max_le_of_forall_le _ _ fun x hx => ?_)
    · rcases h.attained with hz | ⟨i, hi, hat⟩
      · omega
      · by_cases hk : i ∈ d.kept
        · exact List.le_max_of_le (List.mem_map_of_mem hk) hat.ge
        · -- a segment that is dropped is empty
          have hu : isUnused i (d.segment i) = true := by
            by_contra hu
            exact hk (mem_kept.2 ⟨hi, (Bool.not_eq_true _).mp hu⟩)
          rw [(isUnused_iff.1 hu).1] at hat
          rw [← hat]
          exact Nat.zero_le _
    · obtain ⟨i, -, rfl⟩ := List.mem_map.1 hx
      exact h.le_peak i

end Draft

namespace Program

/-- The methods of an accepted program whose expression statements and returns leave what their
types say. -/
theorem methods_are_balanced {options : Options} {items : List Item} {p : Program}
    {warnings : Array Warning} (h : build options items = .ok (p, warnings))
    (tame : ∀ j ∈ jobs options items, j.Tame) :
    ∀ m ∈ p.methods, ∀ segments, m.body = .segments segments → Balanced segments m.maxStack := by
  intro m hm segments hb
  obtain ⟨j, hj, labels, w, hok⟩ := exists_job h hm hb
  obtain ⟨d, hd⟩ := Job.gives True (installed_of_mem_jobs hj) (fun _ => tame j hj) hok
  have level := Draft.level_of_edits hd.step.edits
  rw [hd.eq_finished hb, hd.maxStack level.depth]
  exact level.balanced

theorem methods_are_balanced_meter : (∀ j ∈ jobs {} meter, j.Tame) ∧
    ∃ p warnings, build {} meter = .ok (p, warnings) ∧
      ∀ m ∈ p.methods, ∀ segments, m.body = .segments segments → Balanced segments m.maxStack := by
  have plain : (jobs {} meter).all (fun j => Stmt.arePlain j.stmts) = true := by decide +kernel
  have tame : ∀ j ∈ jobs {} meter, j.Tame := fun j hj =>
    Job.tame_of_plain (List.all_eq_true.1 plain j hj)
  obtain ⟨p, warnings, h⟩ := build_meter
  exact ⟨tame, p, warnings, h, methods_are_balanced h tame⟩

end Program
end ClassAsm
