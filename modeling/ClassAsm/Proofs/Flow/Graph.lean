import ClassAsm.Proofs.Method.Effect
import ClassAsm.Proofs.Program.Bodies

/-! The segments of a compiled method form a control-flow graph. Each ends in its only terminator,
every branch leads to a segment of the same method, and no name but that of the first segment occurs
in two methods. -/

namespace ClassAsm

/-! Drafts. -/

namespace Draft

variable {site : Site} {known : Prop} {low : Nat} {d d' : Draft}

/-- The segments so far, with labels from `low` on. -/
structure Shaped (low : Nat) (d : Draft) : Prop where
  first : (d.segment 0).name = startName
  names : ∀ i, 0 < i → i < d.segments.size →
    ∃ stem n, (d.segment i).name = label stem n ∧ low ≤ n ∧ n < d.labels
  distinct : ∀ i < d.segments.size, ∀ j < d.segments.size,
    (d.segment i).name = (d.segment j).name → i = j
  dropLast : ∀ i, ∀ x ∈ (d.codeAt i).dropLast, x.isTerminator = false
  targets : ∀ i, ∀ x ∈ d.codeAt i, ∀ l, x.target? = some l →
    ∃ t, d.IsJoint t ∧ (d.segment t).name = l ∧ (d.segment t).isTargeted = true
  low_le : low ≤ d.labels

theorem shaped_start (labels : Nat) (warnings : Array Warning) :
    Shaped labels (start labels warnings) where
  first := rfl
  names i hi hlt := by
    have : i < 1 := hlt
    omega
  distinct i hi j hj _ := by
    have : i < 1 := hi
    have : j < 1 := hj
    omega
  dropLast i x hx := by
    have : (start labels warnings).codeAt i = [] := by
      cases i <;> rfl
    simp [this] at hx
  targets i x hx := by
    have : (start labels warnings).codeAt i = [] := by
      cases i <;> rfl
    simp [this] at hx
  low_le := le_rfl

/-- Nothing in an open segment is a terminator. -/
theorem Shaped.not_isTerminator (h : Shaped low d) {i : Nat}
    (ho : (d.segment i).isTerminated = false) : ∀ x ∈ d.codeAt i, x.isTerminator = false := by
  intro x hx
  have drop := h.dropLast i
  rw [isTerminated_segment] at ho
  cases hc : d.codeAt i using List.reverseRecOn with
  | nil => simp [hc] at hx
  | append_singleton c y =>
    rw [hc] at hx ho drop
    rw [List.dropLast_concat] at drop
    rcases List.mem_append.1 hx with hx | hx
    · exact drop x hx
    · rw [List.mem_singleton.1 hx]
      simpa using ho

theorem Shaped.emits (h : Shaped low d) {code : List Instruction} {target : Option Nat}
    (ho : d.fallsThrough = true) (p : Piece known d code target) (e : Emits d d' code target) :
    Shaped low d' where
  first := by rw [e.name, h.first]
  names i hi hlt := by
    rw [e.size] at hlt
    rw [e.name, e.labels]
    exact h.names i hi hlt
  distinct i hi j hj hn := by
    rw [e.size] at hi hj
    rw [e.name, e.name] at hn
    exact h.distinct i hi j hj hn
  dropLast i x hx := by
    rw [e.code] at hx
    split at hx
    · next hc =>
      subst hc
      have old := h.not_isTerminator (fallsThrough_iff.1 ho).1
      by_cases hne : code = []
      · rw [hne, List.append_nil] at hx
        exact old x (List.mem_of_mem_dropLast hx)
      · rw [List.dropLast_append_of_ne_nil hne] at hx
        rcases List.mem_append.1 hx with hx | hx
        · exact old x hx
        · exact p.dropLast x hx
    · exact h.dropLast i x hx
  targets i x hx l hl := by
    have keep {t : Nat} (ht : d.IsJoint t) : d'.IsJoint t :=
      ⟨by rw [e.size]; exact ht.lt, by rw [e.name]; exact ht.name⟩
    have old (hx : x ∈ d.codeAt i) :
        ∃ t, d'.IsJoint t ∧ (d'.segment t).name = l ∧ (d'.segment t).isTargeted = true := by
      obtain ⟨t, ht, hn, htar⟩ := h.targets i x hx l hl
      exact ⟨t, keep ht, by rw [e.name, hn], by rw [e.targeted, htar]; rfl⟩
    rw [e.code] at hx
    split at hx
    · rcases List.mem_append.1 hx with hx | hx
      · exact old hx
      · obtain ⟨t, rfl, ht, hn, -⟩ := p.target_eq hx hl
        exact ⟨t, keep ht, by rw [e.name, hn], by rw [e.targeted]; simp⟩
    · exact old hx
  low_le := by rw [e.labels]; exact h.low_le

theorem Shaped.adds (h : Shaped low d) {stem : String} {muted : Bool}
    (e : Adds d d' stem muted) (hr : d.InRange) : Shaped low d' := by
  have fresh : (d'.segment d.segments.size).name = label stem d.labels := by
    rw [e.segment, if_pos rfl]
  have positive : 0 < d.segments.size := Nat.zero_lt_of_lt hr
  have unnamed {i : Nat} (hi : i < d.segments.size) :
      (d.segment i).name ≠ label stem d.labels := by
    intro hn
    rcases Nat.eq_zero_or_pos i with rfl | hpos
    · exact label_ne_start _ _ (hn.symm.trans h.first)
    · obtain ⟨stem', n, hn', -, hlt⟩ := h.names i hpos hi
      have := (label_injective (hn'.symm.trans hn)).2
      omega
  exact
    { first := by rw [e.segment_of_lt positive, h.first]
      names := fun i hi hlt => by
        rw [e.size] at hlt
        rw [e.labels]
        rcases Nat.lt_succ_iff_lt_or_eq.1 hlt with hlt | rfl
        · obtain ⟨stem', n, hn, hlow, hn'⟩ := h.names i hi hlt
          exact ⟨stem', n, by rw [e.segment_of_lt hlt, hn], hlow, by omega⟩
        · exact ⟨stem, d.labels, fresh, h.low_le, by omega⟩
      distinct := fun i hi j hj hn => by
        rw [e.size] at hi hj
        rcases Nat.lt_succ_iff_lt_or_eq.1 hi with hi | rfl <;>
          rcases Nat.lt_succ_iff_lt_or_eq.1 hj with hj | rfl
        · rw [e.segment_of_lt hi, e.segment_of_lt hj] at hn
          exact h.distinct i hi j hj hn
        · rw [e.segment_of_lt hi, fresh] at hn
          exact absurd hn (unnamed hi)
        · rw [e.segment_of_lt hj, fresh] at hn
          exact absurd hn.symm (unnamed hj)
        · rfl
      dropLast := fun i x hx => h.dropLast i x (by rwa [e.codeAt] at hx)
      targets := fun i x hx l hl => by
        rw [e.codeAt] at hx
        obtain ⟨t, ht, hn, htar⟩ := h.targets i x hx l hl
        have old := e.segment_of_lt ht.lt
        have lt : t < d'.segments.size := by rw [e.size]; exact Nat.lt_succ_of_lt ht.lt
        exact ⟨t, ⟨lt, by rw [old]; exact ht.name⟩, by rw [old, hn], by rw [old, htar]⟩
      low_le := by
        have := h.low_le
        rw [e.labels]
        omega }

theorem Shaped.effect (h : Shaped low d) (hr : d.InRange) (e : Effect site known d d') :
    Shaped low d' := by
  cases e with
  | quiet segments labels =>
    have same (i : Nat) : d'.segment i = d.segment i := by simp [segment, segments]
    exact
      { first := by rw [same, h.first]
        names := fun i hi hlt => by rw [same, labels]; exact h.names i hi (segments ▸ hlt)
        distinct := fun i hi j hj hn => by
          rw [same, same] at hn
          exact h.distinct i (segments ▸ hi) j (segments ▸ hj) hn
        dropLast := fun i x hx => h.dropLast i x (by rwa [codeAt, same] at hx)
        targets := fun i x hx l hl => by
          rw [codeAt, same] at hx
          obtain ⟨t, ht, hn, htar⟩ := h.targets i x hx l hl
          exact ⟨t, ⟨segments ▸ ht.lt, by rw [same]; exact ht.name⟩, by rw [same, hn],
            by rw [same, htar]⟩
        low_le := labels ▸ h.low_le }
  | emits ho p e => exact h.emits ho p e
  | adds e => exact h.adds e hr

theorem shaped_of_edits {labels : Nat} {warnings : Array Warning}
    (h : Edits site known (start labels warnings) d) : Shaped labels d :=
  h.keeps (fun _ _ hr hs he => hs.effect hr he) (inRange_start _ _) (shaped_start _ _)

theorem mem_kept_of_isTargeted {i : Nat} (hi : i < d.segments.size)
    (ht : (d.segment i).isTargeted = true) : i ∈ d.kept := by
  refine mem_kept.2 ⟨hi, ?_⟩
  by_contra hu
  have := (isUnused_iff.1 ((Bool.not_eq_false _).mp hu)).2.2
  simp [ht] at this

theorem kept_eq_cons (hr : d.InRange) : ∃ rest, d.kept = 0 :: rest := by
  have hpos : d.segments.size = (d.segments.size - 1) + 1 := by
    have : 0 < d.segments.size := Nat.zero_lt_of_lt hr
    omega
  rw [kept, hpos, List.range_succ_eq_map, List.filter_cons_of_pos (by simp [isUnused])]
  exact ⟨_, rfl⟩

theorem closing_of_open (site : Site) {i : Nat} (hk : i ∈ d.kept)
    (ho : (d.segment i).isTerminated = false) :
    d.closing site i = if site.returnsVoid then [.ret false] else [.br (d.segment i).name] := by
  rw [closing, if_neg]
  simp [ho, (mem_kept.1 hk).2]

/-- What closes a segment branches nowhere but back to it. -/
theorem target?_closing {i : Nat} {x : Instruction} (hx : x ∈ d.closing site i) {l : String}
    (hl : x.target? = some l) : l = (d.segment i).name := by
  unfold closing at hx
  split at hx
  · cases hx
  · split at hx <;> rw [List.mem_singleton.1 hx] at hl <;> cases hl
    rfl

end Draft

/-! Methods. -/

def Method.segments (m : Method) : List Segment :=
  match m.body with
  | .segments segments => segments
  | _ => []

theorem Method.body_of_mem {m : Method} {s : Segment} (hs : s ∈ m.segments) :
    m.body = .segments m.segments := by
  unfold Method.segments at hs ⊢
  split at hs
  · assumption
  · cases hs

/-- A control-flow graph whose nodes are named segments. -/
structure IsGraph (segments : List Segment) : Prop where
  start : ∃ code rest, segments = ⟨Draft.startName, code⟩ :: rest
  names : (segments.map (·.name)).Nodup
  closed : ∀ s ∈ segments, ∃ body last, s.code = body ++ [last] ∧ last.isTerminator = true ∧
    ∀ i ∈ body, i.isTerminator = false
  targets : ∀ s ∈ segments, ∀ i ∈ s.code, ∀ l, i.target? = some l → ∃ t ∈ segments, t.name = l
  /-- A segment of unreachable code has no branches from elsewhere. -/
  sealed : ∀ s ∈ segments, ∀ i ∈ s.code, ∀ n, i.target? = some (Draft.label "Unreachable" n) →
    s.name = Draft.label "Unreachable" n

namespace Draft

variable {site : Site} {low : Nat} {d : Draft}

theorem Shaped.closed (h : Shaped low d) {i : Nat} (hk : i ∈ d.kept) :
    ∃ body last, (d.closed site i).code = body ++ [last] ∧ last.isTerminator = true ∧
      ∀ x ∈ body, x.isTerminator = false := by
  cases ht : (d.segment i).isTerminated with
  | true =>
    have none : d.closing site i = [] := by rw [closing, if_pos (by simp [ht])]
    have drop := h.dropLast i
    rw [isTerminated_segment] at ht
    cases hc : d.codeAt i using List.reverseRecOn with
    | nil => simp [hc] at ht
    | append_singleton c x =>
      rw [hc] at ht drop
      rw [List.dropLast_concat] at drop
      exact ⟨c, x, by simp [Draft.closed, none, hc], by simpa using ht, drop⟩
  | false =>
    have body := h.not_isTerminator ht
    have last := closing_of_open site hk ht
    split at last
    · exact ⟨_, _, by rw [Draft.closed, last], rfl, body⟩
    · exact ⟨_, _, by rw [Draft.closed, last], rfl, body⟩

theorem Shaped.find?_finished (h : Shaped low d) (site : Site) {i : Nat} (hk : i ∈ d.kept) :
    (d.finished site).find? (·.name == (d.segment i).name) = some (d.closed site i) := by
  cases hf : (d.finished site).find? (·.name == (d.segment i).name) with
  | none =>
    have other : (d.closed site i).name ≠ (d.segment i).name := by
      simpa using List.find?_eq_none.1 hf _ (List.mem_map_of_mem hk)
    exact absurd rfl other
  | some s =>
    obtain ⟨j, hj, rfl⟩ := List.mem_map.1 (List.mem_of_find?_eq_some hf)
    have name : (d.closed site j).name = (d.segment i).name := by
      simpa using List.find?_some hf
    rw [h.distinct j (mem_kept.1 hj).1 i (mem_kept.1 hk).1 name]

theorem Shaped.isGraph (h : Shaped low d) (hr : d.InRange) : IsGraph (d.finished site) where
  start := by
    obtain ⟨rest, hk⟩ := kept_eq_cons hr
    exact ⟨_, _, by rw [finished, hk, List.map_cons, Draft.closed, h.first]⟩
  names := by
    rw [finished, List.map_map]
    refine List.Nodup.map_on (fun i hi j hj hn => ?_) (List.nodup_range.filter _)
    exact h.distinct i (mem_kept.1 hi).1 j (mem_kept.1 hj).1 hn
  closed s hs := by
    obtain ⟨i, hi, rfl⟩ := List.mem_map.1 hs
    exact h.closed hi
  targets s hs x hx l hl := by
    obtain ⟨i, hi, rfl⟩ := List.mem_map.1 hs
    rcases List.mem_append.1 hx with hx | hx
    · obtain ⟨t, ht, hn, htar⟩ := h.targets i x hx l hl
      exact ⟨_, List.mem_map_of_mem (mem_kept_of_isTargeted ht.lt htar), hn⟩
    · exact ⟨_, List.mem_map_of_mem hi, (target?_closing hx hl).symm⟩
  sealed s hs x hx n hl := by
    obtain ⟨i, hi, rfl⟩ := List.mem_map.1 hs
    rcases List.mem_append.1 hx with hx | hx
    · -- what statements branch to has another stem
      obtain ⟨t, ht, hn, -⟩ := h.targets i x hx _ hl
      obtain ⟨stem, n', hn', hstem⟩ := ht.name
      exact absurd (label_injective (hn'.symm.trans hn)).1 hstem
    · exact (target?_closing hx hl).symm

end Draft

/-- The name of every segment but the first has a number from `low` on and below `high`. -/
def Method.NumberedIn (m : Method) (low high : Nat) : Prop :=
  ∀ s ∈ m.segments, s.name = Draft.startName ∨
    ∃ stem n, s.name = Draft.label stem n ∧ low ≤ n ∧ n < high

/-- The methods share no segment names but that of the first segment. -/
def Method.Apart (m m' : Method) : Prop :=
  ∀ s ∈ m.segments, ∀ s' ∈ m'.segments, s.name = s'.name → s.name = Draft.startName

theorem Method.NumberedIn.apart {m m' : Method} {low mid high : Nat} (h : m.NumberedIn low mid)
    (h' : m'.NumberedIn mid high) : m.Apart m' := by
  intro s hs s' hs' hn
  rcases h s hs with h | ⟨stem, n, h, -, hlt⟩
  · exact h
  rcases h' s' hs' with h' | ⟨stem', n', h', hle, -⟩
  · rw [hn, h']
  · have := (Draft.label_injective (h.symm.trans (hn.trans h'))).2
    omega

theorem Method.NumberedIn.mono {m : Method} {low low' high high' : Nat} (h : m.NumberedIn low high)
    (hl : low' ≤ low) (hh : high ≤ high') : m.NumberedIn low' high' := by
  intro s hs
  rcases h s hs with h | ⟨stem, n, h, hle, hlt⟩
  · exact .inl h
  · exact .inr ⟨stem, n, h, hl.trans hle, hlt.trans_le hh⟩

namespace Job

open Draft

section

variable {j : Job} {known : Prop} {d : Draft} {m : Method} {labels : Nat} {warnings : Array Warning}

theorem Gives.segments (h : j.Gives known d m labels warnings) :
    m.segments = d.finished j.site := by
  rw [Method.segments, h.body]

theorem Gives.eq_finished (h : j.Gives known d m labels warnings) {segments : List Segment}
    (hb : m.body = .segments segments) : segments = d.finished j.site := by
  rw [← h.segments, Method.segments, hb]

theorem Gives.shaped (h : j.Gives known d m labels warnings) : Shaped j.labels d :=
  shaped_of_edits h.step.edits

theorem Gives.numberedIn (h : j.Gives known d m labels warnings) :
    m.NumberedIn j.labels labels := by
  intro s hs
  rw [h.segments] at hs
  obtain ⟨i, hi, rfl⟩ := List.mem_map.1 hs
  rcases Nat.eq_zero_or_pos i with rfl | hpos
  · exact .inl h.shaped.first
  · rw [h.labels]
    exact .inr (h.shaped.names i hpos (mem_kept.1 hi).1)

end

/-- Each method takes its numbers after those of the methods before it. -/
theorem Compiles.apart {ms : List Member} {l l' : Nat} {w w' : Array Warning} {cs : List Method}
    (h : Compiles ms l w cs l' w')
    (hs : ∀ m ∈ ms, m.site.registry.Installed m.site.builtins) :
    l ≤ l' ∧ (∀ c ∈ cs, c.NumberedIn l l') ∧ cs.Pairwise Method.Apart := by
  induction h with
  | nil => exact ⟨le_rfl, by simp, .nil⟩
  | @cons m rest l mid high w _ _ c cs hc _ ih =>
    obtain ⟨hle, hrest, hpair⟩ := ih fun m hm => hs m (List.mem_cons_of_mem _ hm)
    obtain ⟨d, hd⟩ := gives False (hs m (by simp)) False.elim
      (j := { toMember := m, labels := l, warnings := w }) hc
    have hmid : l ≤ mid := by
      rw [hd.labels]
      exact hd.shaped.low_le
    have first : c.NumberedIn l mid := hd.numberedIn
    have apart := List.pairwise_cons.2 ⟨fun c' hc' => first.apart (hrest c' hc'), hpair⟩
    refine ⟨hmid.trans hle, ?_, apart⟩
    intro c' hc'
    rcases List.mem_cons.1 hc' with rfl | hc'
    · exact first.mono le_rfl hle
    · exact (hrest c' hc').mono hmid le_rfl

end Job

namespace Program

open Job

theorem segments_base {m : Method}
    (hm : m ∈ Registry.base.classes.toList.flatMap (·.methods)) : m.segments = [] := by
  obtain ⟨c, hc, hm⟩ := List.mem_flatMap.1 hm
  obtain ⟨code, hi⟩ := Registry.inline_base hc hm
  rw [Method.segments, hi]

/-- The methods of an accepted program are control-flow graphs, with names of their own. -/
theorem methods_are_graphs {options : Options} {items : List Item} {p : Program}
    {warnings : Array Warning} (h : build options items = .ok (p, warnings)) :
    (∀ m ∈ p.methods, ∀ segments, m.body = .segments segments → IsGraph segments) ∧
      p.methods.Pairwise Method.Apart := by
  constructor
  · intro m hm segments hb
    obtain ⟨j, hj, labels, w, hok⟩ := exists_job h hm hb
    obtain ⟨d, hd⟩ := gives False (installed_of_mem_jobs hj) False.elim hok
    rw [hd.eq_finished hb]
    exact hd.shaped.isGraph hd.step.inRange
  · obtain ⟨d, hd, finished⟩ := build_finished h
    obtain ⟨cs, l, w, hcs, hms⟩ := finished.compiles
    rw [hms]
    have installed : ∀ m ∈ d.members options, m.site.registry.Installed m.site.builtins := by
      intro m hm
      have held := Declared.holds_of_mem hm
      rw [held.registry, held.builtins]
      exact (declare_ordered hd).installed
    refine List.pairwise_append.2 ⟨?_, (hcs.apart installed).2.2, ?_⟩
    · apply List.pairwise_of_forall_mem_list
      intro m hm m' _ s hs
      rw [segments_base hm] at hs
      cases hs
    · intro m hm m' _ s hs
      rw [segments_base hm] at hs
      cases hs

theorem methods_are_graphs_meter : ∃ p warnings, build {} meter = .ok (p, warnings) ∧
    (∀ m ∈ p.methods, ∀ segments, m.body = .segments segments → IsGraph segments) ∧
      p.methods.Pairwise Method.Apart := by
  obtain ⟨p, warnings, h⟩ := build_meter
  exact ⟨p, warnings, h, methods_are_graphs h⟩

end Program
end ClassAsm
