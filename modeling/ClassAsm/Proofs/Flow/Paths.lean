import ClassAsm.Proofs.Trimming.Twin

/-! Paths through the segments of a method, and what they do with one local. A segment is bare if a
path comes to it before anything is stored to the local. Which segments are bare changes with each
edit of a draft as control does: nothing new is bare but the target of a branch that a path comes to
with nothing stored. -/

namespace ClassAsm

/-- A path from the first segment, with the instructions that it has passed and those ahead in the
segment that it has come to. -/
inductive Arrives (segments : List Segment) : List Instruction → List Instruction → Prop where
  | start {s : Segment} (hs : s ∈ segments) (hn : s.name = Draft.startName) :
      Arrives segments [] s.code
  | next {passed rest : List Instruction} {i : Instruction}
      (h : Arrives segments passed (i :: rest)) (hi : i.isTerminator = false) :
      Arrives segments (passed ++ [i]) rest
  | jump {passed rest : List Instruction} {i : Instruction} {s : Segment}
      (h : Arrives segments passed (i :: rest)) (hs : s ∈ segments)
      (hl : i.target? = some s.name) : Arrives segments (passed ++ [i]) s.code

/-- On every path a value is stored to the slot before the slot is used in another way. -/
def StoredFirst (segments : List Segment) (slot : Nat) : Prop :=
  ∀ passed i rest, Arrives segments passed (i :: rest) → i.slot? = some slot → i ≠ .stloc slot →
    .stloc slot ∈ passed

theorem Arrives.walk {segments : List Segment} {passed rest : List Instruction}
    (code : List Instruction) (h : Arrives segments passed (code ++ rest))
    (on : ∀ i ∈ code, i.isTerminator = false) : Arrives segments (passed ++ code) rest := by
  induction code generalizing passed with
  | nil => simpa using h
  | cons i code ih =>
    have first := Arrives.next h (on i List.mem_cons_self)
    simpa using ih first fun x hx => on x (List.mem_cons_of_mem _ hx)

/-! Code up to the first store. -/

/-- The instructions before the first that stores to the slot. -/
def unstored (slot : Nat) (code : List Instruction) : List Instruction :=
  code.takeWhile (· != .stloc slot)

section

variable {slot : Nat} {code code' : List Instruction} {x : Instruction}

theorem mem_unstored_iff : x ∈ unstored slot code ↔
    ∃ before after, code = before ++ x :: after ∧ .stloc slot ∉ before ∧ x ≠ .stloc slot := by
  induction code with
  | nil => simp [unstored]
  | cons y code ih =>
    by_cases hy : y = .stloc slot
    · subst hy
      rw [unstored, List.takeWhile_cons_of_neg (by simp)]
      constructor
      · nofun
      · rintro ⟨before, after, split, free, ne⟩
        cases before with
        | nil => exact absurd (List.cons.inj split).1.symm ne
        | cons z before => exact absurd ((List.cons.inj split).1 ▸ List.mem_cons_self) free
    · rw [unstored, List.takeWhile_cons_of_pos (by simpa using hy), List.mem_cons, ← unstored, ih]
      constructor
      · rintro (rfl | ⟨before, after, rfl, free, ne⟩)
        · exact ⟨[], code, rfl, List.not_mem_nil, hy⟩
        · exact ⟨y :: before, after, rfl, by simp [free, Ne.symm hy], ne⟩
      · rintro ⟨before, after, split, free, ne⟩
        cases before with
        | nil => exact .inl (List.cons.inj split).1.symm
        | cons z before =>
          exact .inr ⟨before, after, (List.cons.inj split).2,
            fun h => free (List.mem_cons_of_mem _ h), ne⟩

theorem mem_of_mem_unstored (hx : x ∈ unstored slot code) : x ∈ code :=
  (List.takeWhile_prefix _).subset hx

theorem unstored_eq_self_iff : unstored slot code = code ↔ .stloc slot ∉ code := by
  rw [unstored, List.takeWhile_eq_self_iff]
  constructor
  · intro all store
    simpa using all _ store
  · intro free y hy
    simpa using fun store : y = .stloc slot => free (store ▸ hy)

theorem mem_unstored_append : x ∈ unstored slot (code ++ code') ↔
    x ∈ unstored slot code ∨ .stloc slot ∉ code ∧ x ∈ unstored slot code' := by
  have whole : (unstored slot code).length = code.length ↔ .stloc slot ∉ code := by
    rw [← unstored_eq_self_iff]
    exact ⟨(List.takeWhile_prefix _).eq_of_length, congrArg _⟩
  rw [unstored, List.takeWhile_append, ← unstored, ← unstored]
  split
  · next same =>
    have free := whole.1 same
    rw [List.mem_append, unstored_eq_self_iff.2 free, and_iff_right free]
  · next store => simp [not_not.1 (whole.not.1 store)]

end

namespace Draft

/-! Bare segments. -/

/-- A path comes to the segment before anything is stored to the slot. -/
abbrev Bare (d : Draft) (slot : Nat) : Nat → Prop := LedBy (unstored slot) d

/-- A path comes to the end of the current segment before anything is stored to the slot. -/
structure BareHere (d : Draft) (slot : Nat) : Prop where
  bare : d.Bare slot d.current
  unstored : .stloc slot ∉ d.codeAt d.current
  goesOn : (d.segment d.current).isTerminated = false

theorem bareHere_iff {d : Draft} {slot : Nat} : d.BareHere slot ↔ d.Bare slot d.current ∧
    .stloc slot ∉ d.codeAt d.current ∧ (d.segment d.current).isTerminated = false :=
  ⟨fun h => ⟨h.bare, h.unstored, h.goesOn⟩, fun h => ⟨h.1, h.2.1, h.2.2⟩⟩

/-- A path comes to a use of the slot before anything is stored to it. -/
def Exposes (d : Draft) (slot : Nat) : Prop :=
  ∃ i, d.Bare slot i ∧ ∃ x ∈ unstored slot (d.codeAt i), x.slot? = some slot

variable {site : Site} {low slot : Nat} {d d' : Draft} {code : List Instruction}
  {target : Option Nat} {i t : Nat}

theorem Bare.lt (hr : d.InRange) (h : d.Bare slot i) : i < d.segments.size := by
  cases h with
  | start => exact Nat.zero_lt_of_lt hr
  | branch _ _ _ hi => exact hi

theorem unstored_mono {code' : List Instruction} (h : code <+: code') :
    unstored slot code ⊆ unstored slot code' := by
  obtain ⟨more, rfl⟩ := h
  exact fun x hx => mem_unstored_append.2 (.inl hx)

theorem Bare.isLive {before : Array Warning} (lit : Lit site before d) (shaped : Shaped low d)
    (h : d.Bare slot i) : (d.segment i).isLive = true := by
  induction h with
  | start => exact lit.first
  | @branch i j x _ hx hl hi ih =>
    obtain ⟨t, ht, name, live⟩ := lit.flows j ih x (mem_of_mem_unstored hx) _ hl
    exact shaped.distinct t ht i hi name ▸ live

theorem BareHere.isDead (fair : Fair site d) (h : d.BareHere slot) : d.isDead = false := by
  obtain ⟨_, lit⟩ := fair.lit
  obtain ⟨_, shaped⟩ := fair.shaped
  exact isDead_eq_false_iff.2 ⟨h.goesOn, h.bare.isLive lit shaped⟩

/-! Edits. -/

theorem bare_congr (segments : d'.segments = d.segments) : d'.Bare slot i ↔ d.Bare slot i := by
  have same (i : Nat) : d'.segment i = d.segment i := by simp [segment, segments]
  constructor <;> intro h <;>
    refine h.mono unstored_mono (by rw [segments]) (fun i _ => by rw [same]) fun i => ?_ <;>
    rw [codeAt, codeAt, same]

theorem exposes_congr (segments : d'.segments = d.segments) : d'.Exposes slot ↔ d.Exposes slot := by
  have same (i : Nat) : d'.codeAt i = d.codeAt i := by simp [codeAt, segment, segments]
  simp only [Exposes, bare_congr segments, same]

theorem bareHere_congr (segments : d'.segments = d.segments) (current : d'.current = d.current) :
    d'.BareHere slot ↔ d.BareHere slot := by
  have same (i : Nat) : d'.segment i = d.segment i := by simp [segment, segments]
  simp only [bareHere_iff, current, codeAt, same, bare_congr segments]

theorem Adds.bare_iff {stem : String} {muted : Bool} (e : Adds d d' stem muted) (hr : d.InRange)
    (shaped : Shaped low d) : d'.Bare slot i ↔ d.Bare slot i := by
  have shaped' := shaped.adds e hr
  refine ⟨fun h => ?_, fun h => h.mono unstored_mono (by rw [e.size]; omega)
    (fun i hi => by rw [e.segment_of_lt hi]) fun i => by rw [e.codeAt]⟩
  induction h with
  | start => exact .start
  | @branch i j x _ hx hl hi ih =>
    rw [e.codeAt] at hx
    obtain ⟨t, joint, name, -⟩ := shaped.targets j x (mem_of_mem_unstored hx) _ hl
    rw [← e.segment_of_lt joint.lt] at name
    obtain rfl := shaped'.distinct t (by rw [e.size]; have := joint.lt; omega) i hi name
    exact .branch ih hx (by rw [hl, e.segment_of_lt joint.lt]) joint.lt

theorem Adds.exposes_iff {stem : String} {muted : Bool} (e : Adds d d' stem muted) (hr : d.InRange)
    (shaped : Shaped low d) : d'.Exposes slot ↔ d.Exposes slot := by
  simp only [Exposes, e.bare_iff hr shaped, e.codeAt]

/-- Code that is added branches to the target at most, and stores nothing before. If the target has
code already, it is bare. -/
structure Meets (d : Draft) (slot : Nat) (code : List Instruction) (target : Option Nat) :
    Prop where
  only : ∀ x ∈ code, ∀ l, x.target? = some l →
    ∃ t < d.segments.size, target = some t ∧ (d.segment t).name = l
  leads : ∀ t, target = some t → t < d.segments.size ∧
    ∃ x ∈ unstored slot code, x.target? = some (d.segment t).name
  met : ∀ t, target = some t → d.BareHere slot → d.codeAt t = [] ∨ d.Bare slot t

theorem Meets.of_none (h : ∀ x ∈ code, x.target? = none) : d.Meets slot code none where
  only x hx l hl := by simp [h x hx] at hl
  leads := nofun
  met := nofun

theorem Meets.jump {make : String → Instruction} {n : Nat} (straight : Straight code)
    (free : .stloc slot ∉ code) (hj : Jump make n) (ht : t < d.segments.size)
    (met : d.BareHere slot → d.codeAt t = [] ∨ d.Bare slot t) :
    d.Meets slot (code ++ [make (d.segment t).name]) (some t) where
  only x hx l hl := by
    rcases List.mem_append.1 hx with hx | hx
    · simp [target?_of_straight straight hx] at hl
    · rw [List.mem_singleton.1 hx, hj.target?] at hl
      exact ⟨t, ht, rfl, Option.some.inj hl⟩
  leads := by
    rintro _ ⟨⟩
    refine ⟨ht, make (d.segment t).name, mem_unstored_append.2 (.inr ⟨free, ?_⟩), hj.target? _⟩
    rw [unstored_eq_self_iff.2 (by cases hj <;> simp)]
    exact List.mem_singleton_self _
  met := by
    rintro _ ⟨⟩
    exact met

section

variable (e : Emits d d' code target) (meets : d.Meets slot code target)

include e meets

/-- A use or a branch before the first store is an old one, or one of the code that is added. -/
theorem Emits.mem_unstored (ho : (d.segment d.current).isTerminated = false)
    (h : d.Bare slot i ∨ target = some i ∧ d.BareHere slot) {x : Instruction}
    (hx : x ∈ unstored slot (d'.codeAt i)) :
    d.Bare slot i ∧ x ∈ unstored slot (d.codeAt i) ∨ d.BareHere slot ∧ x ∈ unstored slot code := by
  have bare (h : d.Bare slot i) : d.Bare slot i ∧ x ∈ unstored slot (d.codeAt i) ∨
      d.BareHere slot ∧ x ∈ unstored slot code := by
    rw [e.code] at hx
    split at hx
    · next here =>
      subst here
      exact (mem_unstored_append.1 hx).imp (⟨h, ·⟩) fun ⟨free, hx⟩ => ⟨⟨h, free, ho⟩, hx⟩
    · exact .inl ⟨h, hx⟩
  rcases h with h | ⟨ht, here⟩
  · exact bare h
  · rcases meets.met i ht here with empty | h
    · by_cases hc : i = d.current
      · exact bare (hc ▸ here.bare)
      · rw [e.code, if_neg hc, empty] at hx
        cases hx
    · exact bare h

/-- The target of a branch is bare where a path comes to the branch with nothing stored. -/
theorem Emits.bare_iff (shaped : Shaped low d) (ho : (d.segment d.current).isTerminated = false) :
    d'.Bare slot i ↔ d.Bare slot i ∨ target = some i ∧ d.BareHere slot := by
  have old {i : Nat} (h : d.Bare slot i) : d'.Bare slot i :=
    h.mono unstored_mono e.size.ge (fun i _ => e.name i) fun i => by
      rw [e.code]
      split <;> simp
  constructor
  · intro h
    induction h with
    | start => exact .inl .start
    | @branch i j x _ hx hl hi ih =>
      rw [e.size] at hi
      rw [e.name] at hl
      rcases e.mem_unstored meets ho ih hx with ⟨bare, hx⟩ | ⟨here, hx⟩
      · exact .inl (.branch bare hx hl hi)
      · obtain ⟨t, lt, ht, name⟩ := meets.only x (mem_of_mem_unstored hx) _ hl
        exact .inr ⟨shaped.distinct t lt i hi name ▸ ht, here⟩
  · rintro (h | ⟨ht, here⟩)
    · exact old h
    · obtain ⟨lt, x, hx, hl⟩ := meets.leads i ht
      refine .branch (old here.bare) (x := x) ?_ (by rw [e.name, hl]) (by rwa [e.size])
      rw [e.code, if_pos rfl]
      exact mem_unstored_append.2 (.inr ⟨here.unstored, hx⟩)

theorem Emits.exposes_iff (shaped : Shaped low d)
    (ho : (d.segment d.current).isTerminated = false) :
    d'.Exposes slot ↔
      d.Exposes slot ∨ d.BareHere slot ∧ ∃ x ∈ unstored slot code, x.slot? = some slot := by
  have bare {i : Nat} := e.bare_iff meets (i := i) shaped ho
  constructor
  · rintro ⟨i, h, x, hx, use⟩
    rcases e.mem_unstored meets ho (bare.1 h) hx with ⟨h, hx⟩ | ⟨here, hx⟩
    · exact .inl ⟨i, h, x, hx, use⟩
    · exact .inr ⟨here, x, hx, use⟩
  · rintro (⟨i, h, x, hx, use⟩ | ⟨here, x, hx, use⟩)
    · refine ⟨i, bare.2 (.inl h), x, unstored_mono ?_ hx, use⟩
      rw [e.code]
      split <;> simp
    · refine ⟨d.current, bare.2 (.inl here.bare), x, ?_, use⟩
      rw [e.code, if_pos rfl]
      exact mem_unstored_append.2 (.inr ⟨here.unstored, hx⟩)

theorem Emits.bareHere_iff (shaped : Shaped low d)
    (ho : (d.segment d.current).isTerminated = false) :
    d'.BareHere slot ↔ d.BareHere slot ∧ .stloc slot ∉ code ∧
      (d'.segment d'.current).isTerminated = false := by
  have bare := e.bare_iff meets (i := d.current) shaped ho
  have whole : d'.codeAt d.current = d.codeAt d.current ++ code := by rw [e.code, if_pos rfl]
  constructor
  · rintro ⟨h, free, on⟩
    rw [e.current] at h free
    rw [whole, List.mem_append, not_or] at free
    exact ⟨⟨(bare.1 h).elim id fun here => here.2.bare, free.1, ho⟩, free.2, on⟩
  · rintro ⟨here, free, on⟩
    refine ⟨?_, ?_, on⟩ <;> rw [e.current]
    · exact bare.2 (.inl here.bare)
    · rw [whole, List.mem_append, not_or]
      exact ⟨here.unstored, free⟩

end

/-! Finished methods. -/

theorem exists_arrives (shaped : Shaped low d) {passed : List Instruction}
    (h : Arrives (d.finished site) passed (d.closed site i).code) (free : .stloc slot ∉ passed)
    {x : Instruction} (hx : x ∈ unstored slot (d.codeAt i)) : x ≠ .stloc slot ∧
      ∃ passed rest, Arrives (d.finished site) passed (x :: rest) ∧ .stloc slot ∉ passed := by
  obtain ⟨before, after, split, clean, other⟩ := mem_unstored_iff.1 hx
  have on : ∀ y ∈ before, y.isTerminator = false := by
    refine fun y hy => shaped.dropLast i y ?_
    rw [split, List.dropLast_append_of_ne_nil (List.cons_ne_nil x after)]
    exact List.mem_append_left _ hy
  rw [Draft.closed, split, List.append_assoc] at h
  exact ⟨other, _, _, h.walk before on, by simp [free, clean]⟩

theorem Bare.arrives (site : Site) (shaped : Shaped low d) (hr : d.InRange) (h : d.Bare slot i) :
    i ∈ d.kept ∧ ∃ passed, Arrives (d.finished site) passed (d.closed site i).code ∧ .stloc slot ∉ passed := by
  induction h with
  | start =>
    obtain ⟨rest, hk⟩ := kept_eq_cons hr
    have first : 0 ∈ d.kept := hk ▸ List.mem_cons_self
    exact ⟨first, [], .start (List.mem_map_of_mem first) shaped.first, List.not_mem_nil⟩
  | @branch i j x _ hx hl hi ih =>
    obtain ⟨-, passed, arrives, free⟩ := ih
    obtain ⟨other, passed, rest, reached, free⟩ := exists_arrives shaped arrives free hx
    obtain ⟨t, joint, name, used⟩ := shaped.targets j x (mem_of_mem_unstored hx) _ hl
    obtain rfl := shaped.distinct t joint.lt i hi name
    have kept := mem_kept_of_isTargeted joint.lt used
    exact ⟨kept, _, reached.jump (s := d.closed site t) (List.mem_map_of_mem kept) hl,
      by simp [free, Ne.symm other]⟩

theorem slot?_closing {x : Instruction} (hx : x ∈ d.closing site i) : x.slot? = none := by
  unfold closing at hx
  split at hx
  · cases hx
  · split at hx <;> rw [List.mem_singleton.1 hx] <;> rfl

/-- As long as nothing is stored, a path is in a bare segment and has come through it from its
start. -/
theorem stored_or_of_arrives (shaped : Shaped low d) (hr : d.InRange)
    {passed rest : List Instruction} (h : Arrives (d.finished site) passed rest) :
    .stloc slot ∈ passed ∨ ∃ i, d.Bare slot i ∧ i ∈ d.kept ∧
      ∃ before, (d.closed site i).code = before ++ rest ∧ .stloc slot ∉ before := by
  induction h with
  | @start s hs hn =>
    obtain ⟨i, hi, rfl⟩ := List.mem_map.1 hs
    obtain rfl : i = 0 := shaped.distinct i (mem_kept.1 hi).1 0 (Nat.zero_lt_of_lt hr)
      (hn.trans shaped.first.symm)
    exact .inr ⟨0, .start, hi, [], rfl, List.not_mem_nil⟩
  | @next passed rest x _ _ ih =>
    by_cases hx : x = .stloc slot
    · simp [hx]
    rcases ih with store | ⟨i, bare, hi, before, split, free⟩
    · exact .inl (List.mem_append_left _ store)
    · exact .inr ⟨i, bare, hi, before ++ [x], by simpa using split, by simp [free, Ne.symm hx]⟩
  | @jump passed rest x s _ hs hl ih =>
    obtain ⟨t, ht, rfl⟩ := List.mem_map.1 hs
    rcases ih with store | ⟨i, bare, hi, before, split, free⟩
    · exact .inl (List.mem_append_left _ store)
    refine .inr ⟨t, ?_, ht, [], rfl, List.not_mem_nil⟩
    have other : x ≠ .stloc slot := fun store => by simp [store, Instruction.target?] at hl
    have early : x ∈ unstored slot (d.codeAt i ++ d.closing site i) :=
      mem_unstored_iff.2 ⟨before, rest, split, free, other⟩
    rcases mem_unstored_append.1 early with hx | ⟨-, hx⟩
    · exact .branch bare hx hl (mem_kept.1 ht).1
    · have back := target?_closing (mem_of_mem_unstored hx) hl
      exact shaped.distinct i (mem_kept.1 hi).1 t (mem_kept.1 ht).1 back.symm ▸ bare

theorem storedFirst_finished_iff (fair : Fair site d) :
    StoredFirst (d.finished site) slot ↔ ¬ d.Exposes slot := by
  obtain ⟨_, shaped⟩ := fair.shaped
  constructor
  · rintro first ⟨i, bare, x, hx, use⟩
    obtain ⟨-, passed, arrives, free⟩ := bare.arrives site shaped fair.inRange
    obtain ⟨other, passed, rest, reached, free⟩ := exists_arrives shaped arrives free hx
    exact free (first passed x rest reached use other)
  · intro safe passed x rest arrives use other
    rcases stored_or_of_arrives shaped fair.inRange arrives with
      store | ⟨i, bare, -, before, split, free⟩
    · exact store
    have early : x ∈ unstored slot (d.codeAt i ++ d.closing site i) :=
      mem_unstored_iff.2 ⟨before, rest, split, free, other⟩
    rcases mem_unstored_append.1 early with hx | ⟨-, hx⟩
    · exact absurd ⟨i, bare, x, hx, use⟩ safe
    · simp [slot?_closing (mem_of_mem_unstored hx)] at use

end Draft
end ClassAsm
