import ClassAsm.Proofs.Flow.Paths
import ClassAsm.Proofs.Machine.Expressions
import ClassAsm.Proofs.Method.Passages

/-! Parts of a body and the paths through them. Where a part leads a path with nothing stored to a
slot, and whether the path comes to a use of the slot there, is put together from what its own parts
do: code that is added, branches, loops and conditions. -/

namespace ClassAsm

/-! Code and one slot. -/

/-- Whether code goes on without storing to the slot, and whether it uses the slot before. -/
structure Handles (slot : Nat) (code : List Instruction) (leaves uses : Bool) : Prop where
  leaves : leaves = true ↔ .stloc slot ∉ code
  uses : uses = true ↔ ∃ x ∈ unstored slot code, x.slot? = some slot

namespace Handles

variable {slot : Nat} {code code' : List Instruction} {leaves leaves' uses uses' : Bool}

theorem append (h : Handles slot code leaves uses) (h' : Handles slot code' leaves' uses') :
    Handles slot (code ++ code') (leaves && leaves') (uses || leaves && uses') where
  leaves := by rw [Bool.and_eq_true, h.leaves, h'.leaves, List.mem_append, not_or]
  uses := by
    rw [Bool.or_eq_true, Bool.and_eq_true, h.uses, h.leaves, h'.uses]
    simp only [mem_unstored_append, or_and_right, exists_or, and_assoc, exists_and_left]

theorem of_none (h : ∀ i ∈ code, i.slot? = none) : Handles slot code true false where
  leaves := by
    refine iff_of_true rfl fun store => ?_
    cases h _ store
  uses := by
    refine iff_of_false Bool.false_ne_true ?_
    rintro ⟨x, hx, use⟩
    rw [h x (mem_of_mem_unstored hx)] at use
    cases use

theorem one (i : Instruction) (h : i.slot? = none) : Handles slot [i] true false :=
  of_none fun _ hj => List.mem_singleton.1 hj ▸ h

theorem load (s : Nat) : Handles slot [.ldloc s] true (s == slot) where
  leaves := by simp
  uses := by simp [unstored, Instruction.slot?]

theorem store (s : Nat) : Handles slot [.stloc s] (s != slot) false where
  leaves := by
    rw [bne_iff_ne, List.mem_singleton, Instruction.stloc.injEq]
    exact ne_comm
  uses := by
    refine iff_of_false Bool.false_ne_true ?_
    by_cases here : s = slot <;> simp [unstored, Instruction.slot?, here]

end Handles

section

variable {final l : Locals} {name : String} {slot : Nat} {type : TypeRef}
  (found : final.find? name = some (slot, type)) (within : l.Within final)

include found within

/-- The name is the only one that has the slot. -/
theorem Locals.Within.slot_eq_iff {n : String} {s : Nat} {t : TypeRef}
    (h : l.find? n = some (s, t)) : s = slot ↔ n = name := by
  have there := within n _ h
  constructor
  · rintro rfl
    exact Locals.name_unique there found
  · rintro rfl
    exact (Prod.mk.inj (Option.some.inj (there.symm.trans found))).1

/-- An expression uses the slot if it reads the name. -/
theorem handles_of_code {site : Site} (hs : site.registry.Installed site.builtins) {e : Expr}
    {c : Code} (hc : (site.scope l).code e = .ok c) :
    Handles slot c.instructions true (decide (name ∈ site.reads l.names e)) := by
  have loads := Scope.code_loads hs hc
  have same : List.Forall₂ (fun n s => s = slot ↔ n = name) (site.reads l.names e)
      (c.instructions.filterMap Instruction.slot?) := by
    rw [← site.reads_scope l e]
    refine loads.slots.imp fun n s has => ?_
    obtain ⟨t, h⟩ := has
    exact within.slot_eq_iff found (Locals.getElem?_toList.1 h)
  have free := loads.stores slot
  refine ⟨iff_of_true rfl free, ?_⟩
  rw [unstored_eq_self_iff.2 free, decide_eq_true_iff, ← List.mem_filterMap]
  constructor
  · intro hn
    obtain ⟨s, hs, he⟩ := exists_of_mem_forall₂ same.flip hn
    exact he.2 rfl ▸ hs
  · intro hs
    obtain ⟨n, hn, he⟩ := exists_of_mem_forall₂ same hs
    exact he.1 rfl ▸ hn

end

namespace Draft

variable {site : Site} {slot : Nat} {d d' : Draft} {p : Passage} {t : Nat}

/-! Parts of a body. -/

/-- A part leads paths with nothing stored on as its text says, from the current segment. -/
structure Passes (slot : Nat) (d d' : Draft) (p : Passage) : Prop where
  names : d'.locals.names = p.names
  bare : ∀ i < d.segments.size, d'.Bare slot i ↔ d.Bare slot i
  here : d'.BareHere slot ↔ d.BareHere slot ∧ p.leaves = true
  exposes : d'.Exposes slot ↔ d.Exposes slot ∨ d.BareHere slot ∧ p.uses = true

theorem Passes.andThen {a b c : Draft} {q : List String → Passage} (h : Passes slot a b p)
    (h' : Passes slot b c (q b.locals.names)) (size : a.segments.size ≤ b.segments.size) :
    Passes slot a c (p.andThen q) := by
  rw [h.names] at h'
  exact
    { names := h'.names
      bare := fun i hi => (h'.bare i (hi.trans_le size)).trans (h.bare i hi)
      here := by rw [h'.here, h.here, Passage.andThen, Bool.and_eq_true, and_assoc]
      exposes := by
        rw [h'.exposes, h.exposes, h.here, Passage.andThen, Bool.or_eq_true, Bool.and_eq_true,
          and_or_left, or_assoc, and_assoc] }

theorem Passes.quiet (segments : d'.segments = d.segments) (current : d'.current = d.current) :
    Passes slot d d' ⟨d'.locals.names, true, false⟩ where
  names := rfl
  bare _ _ := bare_congr segments
  here := by simp [bareHere_congr segments current]
  exposes := by simp [exposes_congr segments]

/-- Paths come to the start of a part as they have come before. -/
theorem Passes.trans {a b c : Draft} {names : List String}
    (h : Passes slot a b ⟨names, true, false⟩) (h' : Passes slot b c p) (size : a.segments.size ≤ b.segments.size) : Passes slot a c p := by
  have both : Passes slot a c (Passage.andThen _ fun _ => p) := h.andThen h' size
  simpa [Passage.andThen] using both

theorem Passes.after {a b c : Draft} (h : Passes slot b c p) (segments : b.segments = a.segments)
    (current : b.current = a.current) : Passes slot a c p :=
  (Passes.quiet segments current).trans h (by rw [segments])

theorem passes_emitAll (fair : Fair site d) (ho : d.fallsThrough = true) {c : List Instruction}
    (straight : Straight c) {leaves uses : Bool} (h : Handles slot c leaves uses) :
    Passes slot d (d.emitAll c) ⟨d.locals.names, leaves, uses⟩ := by
  obtain ⟨_, shaped⟩ := fair.shaped
  have e := emits_emitAll fair.inRange c
  have on := (fallsThrough_iff.1 ho).1
  have meets : d.Meets slot c none := .of_none fun x hx => target?_of_straight straight hx
  have on' : ((d.emitAll c).segment (d.emitAll c).current).isTerminated = false :=
    (fallsThrough_iff.1 (fallsThrough_emitAll fair.inRange straight ho)).1
  exact
    { names := by rw [locals_emitAll]
      bare := fun i _ => by simpa using e.bare_iff meets shaped on
      here := by rw [e.bareHere_iff meets shaped on, h.leaves, and_iff_left on']
      exposes := by rw [e.exposes_iff meets shaped on, h.uses] }

theorem passes_ret (fair : Fair site d) (ho : d.fallsThrough = true) {c : List Instruction}
    (straight : Straight c) {uses : Bool} (h : Handles slot c true uses) (hasValue : Bool) :
    Passes slot d (d.emitAll (c ++ [.ret hasValue])) ⟨d.locals.names, false, uses⟩ := by
  obtain ⟨_, shaped⟩ := fair.shaped
  have e := emits_emitAll fair.inRange (c ++ [.ret hasValue])
  have on := (fallsThrough_iff.1 ho).1
  have meets : d.Meets slot (c ++ [.ret hasValue]) none := .of_none fun x hx => by
    rcases List.mem_append.1 hx with hx | hx
    · exact target?_of_straight straight hx
    · rw [List.mem_singleton.1 hx]
      rfl
  have last := h.append (.one (.ret hasValue) rfl)
  have stops : ¬ (d.emitAll (c ++ [.ret hasValue])).BareHere slot := fun here => by
    have on := here.goesOn
    rw [isTerminated_segment, current_emitAll, codeAt_emitAll fair.inRange, if_pos rfl,
      ← List.append_assoc, List.getLast?_concat] at on
    cases on
  exact
    { names := by rw [locals_emitAll]
      bare := fun i _ => by simpa using e.bare_iff meets shaped on
      here := iff_of_false stops (by simp)
      exposes := by
        rw [e.exposes_iff meets shaped on, ← last.uses]
        simp }

/-! Branches. -/

theorem bare_switchTo {i : Nat} : (d.switchTo t).Bare slot i ↔ d.Bare slot i := bare_congr rfl

theorem exposes_switchTo : (d.switchTo t).Exposes slot ↔ d.Exposes slot := exposes_congr rfl

theorem bareHere_switchTo (empty : d.codeAt t = []) :
    (d.switchTo t).BareHere slot ↔ d.Bare slot t := by
  have here : (d.switchTo t).BareHere slot ↔ (d.switchTo t).Bare slot t ∧
      .stloc slot ∉ d.codeAt t ∧ (d.segment t).isTerminated = false := bareHere_iff
  simp [here, bare_switchTo, empty, isTerminated_of_empty empty]

/-- Where the current segment goes on in another one, nothing else becomes bare. -/
structure EntersAt (slot t : Nat) (d d' : Draft) : Prop where
  bare : ∀ i, d'.Bare slot i ↔ d.Bare slot i ∨ i = t ∧ d.BareHere slot
  exposes : d'.Exposes slot ↔ d.Exposes slot

theorem entersAt_join (slot : Nat) (fair : Fair site d) (ht : t < d.segments.size)
    (met : d.BareHere slot → d.codeAt t = [] ∨ d.Bare slot t) : EntersAt slot t d (d.join t) := by
  obtain ⟨_, shaped⟩ := fair.shaped
  unfold join
  split
  · next ho =>
    have e := emits_branch fair.inRange ho Straight.nil ht .br
    have on := (fallsThrough_iff.1 ho).1
    have meets : d.Meets slot ([] ++ [.br (d.segment t).name]) (some t) :=
      .jump Straight.nil List.not_mem_nil .always ht met
    constructor
    · intro i
      have bare := e.bare_iff meets shaped on (i := i)
      rwa [Option.some.injEq, eq_comm (a := t)] at bare
    · have none : ¬ ∃ x ∈ unstored slot ([] ++ [Instruction.br (d.segment t).name]),
          x.slot? = some slot := by simp [unstored, Instruction.slot?]
      exact (e.exposes_iff meets shaped on).trans (or_iff_left fun h => none h.2)
  · next closed =>
    have stops : ¬ d.BareHere slot := fun here =>
      closed (fallsThrough_of_running (here.isDead fair))
    exact ⟨fun i => by simp [stops], Iff.rfl⟩

/-- Branches from the current segment to others, which are bare then if a path comes to its end. -/
structure Tests (slot : Nat) (d d' : Draft) (ts : List Nat) (uses : Bool) : Prop where
  bare : ∀ i, d'.Bare slot i ↔ d.Bare slot i ∨ i ∈ ts ∧ d.BareHere slot
  here : d'.BareHere slot ↔ d.BareHere slot
  exposes : d'.Exposes slot ↔ d.Exposes slot ∨ d.BareHere slot ∧ uses = true

theorem Tests.trans {a b c : Draft} {ts ts' : List Nat} {uses uses' : Bool}
    (h : Tests slot a b ts uses) (h' : Tests slot b c ts' uses') :
    Tests slot a c (ts ++ ts') (uses || uses') where
  bare i := by rw [h'.bare, h.bare, h.here, List.mem_append, or_and_right, or_assoc]
  here := h'.here.trans h.here
  exposes := by rw [h'.exposes, h.exposes, h.here, Bool.or_eq_true, and_or_left, or_assoc]

theorem Tests.bare_of_new {ts : List Nat} {uses : Bool} (h : Tests slot d d' ts uses)
    (hr : d.InRange) {i : Nat} (new : d.segments.size ≤ i) :
    d'.Bare slot i ↔ i ∈ ts ∧ d.BareHere slot := by
  have dark : ¬ d.Bare slot i := fun bare => absurd (bare.lt hr) (not_lt.2 new)
  rw [h.bare, or_iff_right dark]

theorem tests_spawnFresh (fair : Fair site d) (stem : String) (muted : Bool) :
    Tests slot d (d.spawnFresh stem muted).2 [] false := by
  obtain ⟨_, shaped⟩ := fair.shaped
  have adds := @adds_spawnFresh d stem muted
  have bare (i : Nat) : (d.spawnFresh stem muted).2.Bare slot i ↔ d.Bare slot i :=
    adds.bare_iff fair.inRange shaped
  refine ⟨fun i => by simp [bare], ?_, by simp [adds.exposes_iff fair.inRange shaped]⟩
  rw [bareHere_iff, bareHere_iff, bare, adds.codeAt, current_spawnFresh,
    adds.segment_of_lt fair.inRange]

theorem tests_branch (fair : Fair site d) (ho : d.fallsThrough = true) {c : List Instruction}
    (straight : Straight c) {uses : Bool} (h : Handles slot c true uses)
    {make : String → Instruction} (hj : Jump make 1) (ht : t < d.segments.size)
    (empty : d.codeAt t = []) : Tests slot d ((d.emitAll c).branch make t) [t] uses := by
  obtain ⟨_, shaped⟩ := fair.shaped
  have e := emits_branch fair.inRange ho straight ht make
  have on := (fallsThrough_iff.1 ho).1
  have meets : d.Meets slot (c ++ [make (d.segment t).name]) (some t) :=
    .jump straight (h.leaves.1 rfl) hj ht fun _ => .inl empty
  have last : Handles slot [make (d.segment t).name] true false := .one _ (by cases hj <;> rfl)
  have whole := h.append last
  have opened : ((d.emitAll c).branch make t).fallsThrough = true :=
    fallsThrough_branch (fair.inRange.emitAll c) (by rwa [size_emitAll])
      (fun _ => by cases hj <;> rfl) (fallsThrough_emitAll fair.inRange straight ho)
  refine ⟨fun i => ?_, ?_, ?_⟩
  · rw [e.bare_iff meets shaped on, Option.some.injEq, List.mem_singleton, eq_comm (a := t)]
  · rw [e.bareHere_iff meets shaped on, and_iff_left]
    exact ⟨whole.leaves.1 rfl, (fallsThrough_iff.1 opened).1⟩
  · rw [e.exposes_iff meets shaped on, ← whole.uses]
    simp

theorem loopHead_tests (fair : Fair site d) (ho : d.fallsThrough = true) :
    Tests slot d d.loopHead [d.segments.size] false := by
  have new := loopSegments_new site False fair.inRange
  have spawned : Tests slot d d.loopSegments [] false :=
    (tests_spawnFresh fair "Cond" false).trans
      (tests_spawnFresh (fair.step (step_spawn fair.inRange (by decide))) "AfterCond" false)
  have joined : d.loopHead = (d.loopSegments.join d.segments.size).switchTo d.segments.size := by
    rw [join, if_pos (new.open' ho), loopHead]
  have enters := entersAt_join slot (fair.step new.step) new.cond.joint.lt
    fun _ => .inl new.cond.empty
  have bare (i : Nat) : d.loopHead.Bare slot i ↔ d.Bare slot i ∨ i = d.segments.size ∧
      d.BareHere slot := by
    rw [joined, bare_switchTo, enters.bare, spawned.bare, spawned.here]
    simp
  have empty : (d.loopSegments.join d.segments.size).codeAt d.segments.size = [] := by
    have apart : d.segments.size ≠ d.loopSegments.current := Nat.ne_of_gt fair.inRange
    rw [join, if_pos (new.open' ho), codeAt_branch _ new.step.inRange, if_neg apart]
    exact new.cond.empty
  refine ⟨fun i => by simp [bare], ?_, ?_⟩
  · have dark : ¬ d.Bare slot d.segments.size := fun h => lt_irrefl _ (h.lt fair.inRange)
    rw [joined, bareHere_switchTo empty, enters.bare, spawned.bare, spawned.here]
    simp [dark]
  · rw [joined, exposes_switchTo, enters.exposes, spawned.exposes]

variable {final : Locals} {name : String} {type : TypeRef}
  (found : final.find? name = some (slot, type)) (hs : site.registry.Installed site.builtins)

section

include found hs

theorem test_tests (fair : Fair site d) (ho : d.fallsThrough = true)
    (within : d.locals.Within final) {e : Expr} {c : Code}
    (hc : (site.scope d.locals).valueCode e = .ok c) {make : String → Instruction}
    (hj : Jump make 1) (ht : t < d.segments.size) (empty : d.codeAt t = []) :
    Tests slot d ((d.emitAll c.instructions).branch make t) [t]
      (decide (name ∈ site.reads d.locals.names e)) :=
  tests_branch fair ho (Scope.valueCode_leaves hs hc).straight
    (handles_of_code found within hs (Scope.valueCode_eq_ok.1 hc).1) hj ht empty

theorem loopStart_tests (fair : Fair site d) (ho : d.fallsThrough = true)
    (within : d.locals.Within final) {c : Expr} {cond after : Nat}
    (h : d.loopStart site c = .ok (cond, after, d')) :
    Tests slot d d' [cond, after] (decide (name ∈ site.reads d.locals.names c)) := by
  have head : LoopStart site False d d.loopHead _ _ := loopHead_start fair.inRange ho
  obtain ⟨code, hc, rfl, rfl, rfl⟩ := loopStart_eq_ok.1 h
  have test := test_tests (d := d.loopHead) found hs (fair.step head.step) head.open' within hc
    .ifFalse head.new.joint.lt head.new.empty
  exact (loopHead_tests fair ho).trans test

theorem condition_tests (fair : Fair site d) (ho : d.fallsThrough = true)
    (within : d.locals.Within final) {a : Arm} {segment : Nat}
    (h : d.condition site a = .ok (segment, d')) :
    Tests slot d d' [segment] (decide (name ∈ site.reads d.locals.names a.condition)) := by
  obtain ⟨c, hc, rfl, rfl⟩ := condition_eq_ok.1 h
  have new := @isNew_spawnFresh d "Cond" (by decide)
  have spawned : Fair site (d.spawnFresh "Cond" false).2 :=
    fair.step (step_spawn fair.inRange (by decide))
  have test := test_tests (d := (d.spawnFresh "Cond" false).2) found hs spawned
    (fallsThrough_spawnFresh fair.inRange ho _ _) within hc .ifTrue new.joint.lt new.empty
  exact (tests_spawnFresh fair "Cond" false).trans test

theorem conditions_tests (fair : Fair site d) (ho : d.fallsThrough = true)
    (within : d.locals.Within final) {as : List Arm} {segments : List Nat}
    (h : d.conditions site as = .ok (segments, d')) :
    Tests slot d d' segments
      (as.any fun a => name ∈ site.reads d.locals.names a.condition) := by
  induction as generalizing d segments with
  | nil =>
    cases h
    exact ⟨fun i => by simp, Iff.rfl, by simp⟩
  | cons a as ih =>
    obtain ⟨segment, d₁, rest, ha, hr, rfl⟩ := conditions_cons_eq_ok.1 h
    have start : ArmsStart site False d d₁ [segment] := condition_start hs fair.inRange ho ha
    have same := locals_condition ha
    have others := ih (fair.step start.step) start.open' (same.symm ▸ within) hr
    rw [same] at others
    exact (condition_tests found hs fair ho within ha).trans others

theorem condStart_tests (fair : Fair site d) (ho : d.fallsThrough = true)
    (within : d.locals.Within final) {as : List Arm} {after : Nat} {segments : List Nat}
    (h : d.condStart site as = .ok (after, segments, d')) :
    Tests slot d d' segments
      (as.any fun a => name ∈ site.reads d.locals.names a.condition) := by
  obtain ⟨rfl, hc⟩ := condStart_eq_ok.1 h
  have spawned : Fair site (d.spawnFresh "AfterCond" false).2 :=
    fair.step (step_spawn fair.inRange (by decide))
  have tests := conditions_tests (d := (d.spawnFresh "AfterCond" false).2) found hs spawned
    (fallsThrough_spawnFresh fair.inRange ho _ _) within hc
  exact (tests_spawnFresh fair "AfterCond" false).trans tests

end

/-! Loops and conditions as a whole. -/

theorem Fair.switchTo (h : Fair site d) (lt : t < d.segments.size) (empty : d.codeAt t = []) :
    Fair site (d.switchTo t) := by
  obtain ⟨⟨labels, warnings, edits⟩, -⟩ := h
  exact ⟨⟨labels, warnings, edits.tail (.switch lt empty)⟩, lt⟩

include hs in
/-- Behind a loop paths are bare if they come to it with nothing stored. -/
theorem loop_passes (fair : Fair site d) (ho : d.fallsThrough = true) {d₁ d₂ : Draft} {c : Expr}
    {cond after : Nat} {uses : Bool} (h : d.loopStart site c = .ok (cond, after, d₁))
    (tests : Tests slot d d₁ [cond, after] uses) (step : Step site False d₁ d₂)
    (body : Passes slot d₁ d₂ p) :
    Passes slot d ((d₂.join cond).switchTo after) ⟨p.names, true, uses || p.uses⟩ := by
  have start : LoopStart site False d d₁ cond after := loopStart_start hs fair.inRange ho h
  have range : d.segments.size ≤ cond := by
    obtain ⟨_, -, rfl, -⟩ := loopStart_eq_ok.1 h
    exact le_rfl
  have lt := start.joint.lt.trans_le step.grows.size
  have condBare : d₂.Bare slot cond ↔ d.BareHere slot := by
    rw [body.bare _ start.joint.lt, tests.bare_of_new fair.inRange range]
    simp
  -- where the body comes back with nothing stored, it has started so
  have back := entersAt_join slot (fair.step start.step |>.step step) lt fun here =>
    .inr (condBare.2 (tests.here.1 (body.here.1 here).1))
  have join := start.join step
  have new := start.new.step (step.trans join) (by rw [start.current]; exact start.apart)
  refine ⟨(congrArg Locals.names (locals_join d₂ cond)).trans body.names, fun i hi => ?_, ?_, ?_⟩
  · have old : i ∉ [cond, after] := by
      have := start.new.range
      simp only [List.mem_cons, List.not_mem_nil, or_false]
      omega
    have other : ¬ (i = cond ∧ d₂.BareHere slot) := fun hc => old (by simp [hc.1])
    rw [bare_switchTo, back.bare, or_iff_left other,
      body.bare i (hi.trans_le start.step.grows.size), tests.bare, or_iff_left fun hm => old hm.1]
  · have other : ¬ (after = cond ∧ d₂.BareHere slot) := fun hc => start.apart hc.1
    rw [bareHere_switchTo new.empty, back.bare, or_iff_left other,
      body.bare after start.new.joint.lt, tests.bare_of_new fair.inRange start.new.range]
    simp
  · rw [exposes_switchTo, back.exposes, body.exposes, tests.exposes, tests.here, Bool.or_eq_true,
      and_or_left, or_assoc]

/-- Arms are entered with nothing stored all together or not at all, and control comes out of them
in the segment after the condition. -/
structure ArmsPass (slot after : Nat) (entered : Prop) (d d' : Draft) (p : Passage) : Prop where
  names : d'.locals.names = p.names
  bare : ∀ i < d.segments.size, i ≠ after → (d'.Bare slot i ↔ d.Bare slot i)
  after : d'.Bare slot after ↔ d.Bare slot after ∨ entered ∧ p.leaves = true
  exposes : d'.Exposes slot ↔ d.Exposes slot ∨ entered ∧ p.uses = true

theorem arm_passes (fair : Fair site d) {d₁ d₂ : Draft} {after segment : Nat} {a : Arm}
    {xs : List (Nat × Arm)} {q : List String → Passage} {entered : Prop}
    (ready : d.Ready (.arms after ((segment, a) :: xs))) (empty : d.codeAt after = [])
    (step : Step site False (d.switchTo segment) d₁) (body : Passes slot (d.switchTo segment) d₁ p)
    (apart : after ∉ segment :: xs.map Prod.fst)
    (enters : ∀ t ∈ segment :: xs.map Prod.fst, d.Bare slot t ↔ entered)
    (rest : (d₁.join after).codeAt after = [] →
      (∀ t ∈ xs.map Prod.fst, (d₁.join after).Bare slot t ↔ entered) →
      ArmsPass slot after entered (d₁.join after) d₂ (q (d₁.join after).locals.names)) :
    ArmsPass slot after entered d d₂ (p.orElse q) := by
  have lt := ready.1.lt
  obtain ⟨inside, blank, -⟩ := ready.2.2 segment (by simp)
  obtain ⟨all, -⟩ := ready.nextArms step
  have fair₁ : Fair site d₁ := (fair.switchTo inside blank).step step
  have other : after ≠ segment := fun he => apart (he ▸ List.mem_cons_self)
  have empty₁ : d₁.codeAt after = [] := (step.advances.keeps.code after lt other).trans empty
  have joined := entersAt_join slot fair₁ (lt.trans_le step.grows.size) fun _ =>
    .inl empty₁
  have here : d₁.BareHere slot ↔ entered ∧ p.leaves = true := by
    rw [body.here, bareHere_switchTo blank, enters segment List.mem_cons_self]
  have old {i : Nat} (hi : i < d.segments.size) (ha : i ≠ after) :
      (d₁.join after).Bare slot i ↔ d.Bare slot i := by
    rw [joined.bare, or_iff_left fun h => ha h.1, body.bare i hi, bare_switchTo]
  have filled := rest ((all.advances.keeps.code after lt other).trans empty) fun t hm => by
    have later : t ≠ after := fun he => apart (he ▸ List.mem_cons_of_mem _ hm)
    rw [old (ready.2.2 t (by simp [hm])).1 later, enters t (List.mem_cons_of_mem _ hm)]
  rw [locals_join, body.names] at filled
  refine ⟨filled.names, fun i hi ha => ?_, ?_, ?_⟩
  · rw [filled.bare i (hi.trans_le all.grows.size) ha, old hi ha]
  · rw [filled.after, joined.bare, here, body.bare after lt, bare_switchTo, Passage.orElse,
      Bool.or_eq_true, and_or_left, or_assoc]
    simp
  · rw [filled.exposes, joined.exposes, body.exposes, exposes_switchTo,
      bareHere_switchTo blank, enters segment List.mem_cons_self, Passage.orElse, Bool.or_eq_true,
      and_or_left, or_assoc]

include hs in
/-- Behind a condition paths are bare that come out of the `else` block or of an arm so. -/
theorem cond_passes (fair : Fair site d) (ho : d.fallsThrough = true) {d₁ d₂ d₃ : Draft}
    {as : List Arm} {after : Nat} {segments : List Nat} {uses : Bool} {q : List String → Passage}
    (h : d.condStart site as = .ok (after, segments, d₁)) (tests : Tests slot d d₁ segments uses)
    (step : Step site False d₁ d₂) (body : Passes slot d₁ d₂ p) (empty : d₃.codeAt after = [])
    (arms : ∀ entered, (∀ t ∈ segments, (d₂.join after).Bare slot t ↔ entered) →
      ArmsPass slot after entered (d₂.join after) d₃ (q (d₂.join after).locals.names)) :
    Passes slot d (d₃.switchTo after)
      ⟨(p.orElse q).names, (p.orElse q).leaves, uses || (p.orElse q).uses⟩ := by
  have start : ArmsStart site False d d₁ (after :: segments) := condStart_start hs fair.inRange ho h
  have own := start.new after List.mem_cons_self
  have apart := (List.nodup_cons.1 start.distinct).1
  obtain ⟨all, fresh⟩ := start.middle fair.inRange step
  have lt := own.joint.lt.trans_le step.grows.size
  have fair₂ : Fair site d₂ := (fair.step start.step).step step
  have empty₂ : d₂.codeAt after = [] := by
    rw [step.advances.keeps.code after own.joint.lt, own.empty]
    rw [start.current]
    exact Nat.ne_of_gt (lt_of_lt_of_le fair.inRange own.range)
  have joined := entersAt_join slot fair₂ lt fun _ => .inl empty₂
  have filled := arms (d.BareHere slot) fun t ht => by
    have new := start.new t (List.mem_cons_of_mem _ ht)
    have other : t ≠ after := fun he => apart (he ▸ ht)
    rw [joined.bare, or_iff_left fun hc => other hc.1, body.bare t new.joint.lt,
      tests.bare_of_new fair.inRange new.range, and_iff_right ht]
  rw [locals_join, body.names] at filled
  have here : d₂.BareHere slot ↔ d.BareHere slot ∧ p.leaves = true := by
    rw [body.here, tests.here]
  refine ⟨filled.names, fun i hi => ?_, ?_, ?_⟩
  · have old : i ∉ after :: segments := fun hm => absurd (start.new i hm).range (not_le.2 hi)
    have other := List.ne_of_not_mem_cons old
    rw [bare_switchTo, filled.bare i (hi.trans_le all.grows.size) other, joined.bare,
      or_iff_left fun hc => other hc.1, body.bare i (hi.trans_le start.step.grows.size), tests.bare,
      or_iff_left fun hc => List.not_mem_of_not_mem_cons old hc.1]
  · have dark : ¬ d₁.Bare slot after := fun bare =>
      apart ((tests.bare_of_new fair.inRange own.range).1 bare).1
    rw [bareHere_switchTo empty, filled.after, joined.bare, body.bare after own.joint.lt,
      or_iff_right dark, here, Passage.orElse, Bool.or_eq_true, and_or_left]
    simp
  · rw [exposes_switchTo, filled.exposes, joined.exposes, body.exposes, tests.exposes, tests.here,
      Passage.orElse, Bool.or_eq_true, Bool.or_eq_true, and_or_left, and_or_left, or_assoc,
      or_assoc]

end Draft
end ClassAsm
