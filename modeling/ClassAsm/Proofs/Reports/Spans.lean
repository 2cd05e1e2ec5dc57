import ClassAsm.Compilation
import ClassAsm.Proofs.Grammar.Unmoved
import ClassAsm.Proofs.Grammar.Viable
import ClassAsm.Proofs.Renaming.Programs
import ClassAsm.Proofs.Reports.Located
import ClassAsm.Proofs.Source.Directives

/-! The spans of reports lie inside the source. Tokens stand on whole characters, and the spans of
trees are joined of theirs. The spans of a program, of its warnings and of its failure move with the
spans of the items; so a map that leaves the items as they are leaves the reports as they are, and
the map that moves whatever does not lie inside the source is one. -/

namespace ClassAsm

variable {source : List Char}

theorem splitBytes_eq_some_iff {n : Nat} {cs before after : List Char} :
    splitBytes n cs = some (before, after) ↔ cs = before ++ after ∧ byteLength before = n := by
  constructor
  · intro h
    fun_induction splitBytes n cs generalizing before with
    | case1 cs =>
      cases h
      exact ⟨rfl, rfl⟩
    | case2 => cases h
    | case3 n c cs fits ih =>
      obtain ⟨⟨taken, rest⟩, hs, he⟩ := Option.map_eq_some_iff.1 h
      obtain ⟨rfl, rfl⟩ := Prod.mk.inj he
      obtain ⟨rfl, hn⟩ := ih hs
      refine ⟨rfl, ?_⟩
      rw [byteLength_cons, hn]
      omega
    | case4 => cases h
  · rintro ⟨rfl, rfl⟩
    exact splitBytes_append before after

/-- No character of the text is cut at the offset, and the text goes that far. -/
def IsBoundary (source : List Char) (n : Nat) : Prop := (splitBytes n source).isSome

instance {n : Nat} : Decidable (IsBoundary source n) := inferInstanceAs (Decidable (_ = true))

theorem isBoundary_iff {n : Nat} :
    IsBoundary source n ↔ ∃ before after, source = before ++ after ∧ byteLength before = n := by
  simp only [IsBoundary, Option.isSome_iff_exists, Prod.exists, splitBytes_eq_some_iff]

theorem IsBoundary.le {n : Nat} (h : IsBoundary source n) : n ≤ byteLength source := by
  obtain ⟨before, after, rfl, rfl⟩ := isBoundary_iff.1 h
  rw [byteLength_append]
  exact Nat.le_add_right _ _

namespace Span

/-- The span lies inside the text and begins and ends between characters. -/
structure Inside (source : List Char) (s : Span) : Prop where
  ordered : s.start ≤ s.stop
  within : s.stop ≤ byteLength source
  starts : IsBoundary source s.start
  stops : IsBoundary source s.stop

variable {s a b : Span}

theorem Inside.of_boundaries (ordered : s.start ≤ s.stop) (starts : IsBoundary source s.start)
    (stops : IsBoundary source s.stop) : s.Inside source :=
  ⟨ordered, stops.le, starts, stops⟩

instance : Decidable (s.Inside source) :=
  decidable_of_iff (s.start ≤ s.stop ∧ IsBoundary source s.start ∧ IsBoundary source s.stop)
    ⟨fun ⟨o, a, b⟩ => .of_boundaries o a b, fun h => ⟨h.ordered, h.starts, h.stops⟩⟩

theorem Inside.of_append {before text after : List Char}
    (h : source = before ++ (text ++ after)) :
    Inside source ⟨byteLength before, byteLength before + byteLength text⟩ :=
  .of_boundaries (Nat.le_add_right _ _) (isBoundary_iff.2 ⟨before, _, h, rfl⟩)
    (isBoundary_iff.2 ⟨before ++ text, after, h.trans (List.append_assoc ..).symm,
      byteLength_append ..⟩)

theorem Inside.origin : Inside source ⟨0, 0⟩ :=
  have start : IsBoundary source 0 := isBoundary_iff.2 ⟨[], source, rfl, rfl⟩
  .of_boundaries le_rfl start start

theorem Inside.point (h : s.Inside source) : (point s.stop).Inside source :=
  .of_boundaries le_rfl h.stops h.stops

theorem Inside.join (ha : a.Inside source) (hb : b.Inside source) : (a.join b).Inside source := by
  refine .of_boundaries ?_ ?_ ?_
  · exact (min_le_left _ _).trans (ha.ordered.trans (le_max_left _ _))
  · exact min_rec' (IsBoundary source) ha.starts hb.starts
  · exact max_rec' (IsBoundary source) ha.stops hb.stops

/-- The span, or the beginning of the text in place of one that does not lie inside. -/
def confine (source : List Char) (s : Span) : Span := if s.Inside source then s else ⟨0, 0⟩

theorem confine_eq_self : s.confine source = s ↔ s.Inside source := by
  unfold confine
  split
  · next h => simp [h]
  · next h =>
    refine iff_of_false (fun he => h ?_) h
    exact he ▸ .origin

theorem confine_origin : confine source ⟨0, 0⟩ = ⟨0, 0⟩ := confine_eq_self.2 .origin

theorem keepsJoins_confine : Grammar.KeepsJoins (confine source) := fun _ _ ha hb =>
  confine_eq_self.2 ((confine_eq_self.1 ha).join (confine_eq_self.1 hb))

end Span

/-! Tokens and items. -/

theorem Piece.Laid.inside {left : List Char} {ps : List Piece} (h : Laid source ps left)
    {t : Token} (ht : t ∈ tokensFrom 0 ps) : t.span.Inside source := by
  obtain ⟨ts, us, hts⟩ := List.append_of_mem ht
  obtain ⟨before, kind, text, after, rfl, -, span⟩ := exists_of_tokensFrom hts
  have whole := h.eq_append
  rw [List.flatMap_append, List.flatMap_cons, List.append_assoc, List.append_assoc] at whole
  rw [span, Nat.zero_add]
  exact .of_append whole

/-- A source fails to be split at one of its characters. -/
theorem Lexed.inside_of_error {f : Failure} (h : (ofSource source).tokens = .error f) :
    ∃ s, f.span = some s ∧ s.Inside source := by
  obtain ⟨ps, -, laid⟩ := Piece.scan_laid [] source
  have stops := stopsAt laid
  generalize byteLength (ps.flatMap Piece.text) = offset at stops
  cases stops with
  | ends lexed => cases lexed.symm.trans h
  | @stuck before after c whole _ fails =>
    cases fails.symm.trans h
    refine ⟨_, rfl, ?_⟩
    have one : Span.Inside source ⟨byteLength before, byteLength before + byteLength [c]⟩ :=
      .of_append whole
    rwa [show byteLength [c] = c.utf8Size from Nat.zero_add _] at one

variable {tokens : List Token}

theorem Item.inside_of_error {f : Failure} (lexed : (Lexed.ofSource source).tokens = .ok tokens)
    (h : ofTokens tokens = .error f) : ∃ s, f.span = some s ∧ s.Inside source := by
  obtain ⟨ps, laid, rfl⟩ := Lexed.laid_of_ofSource lexed
  rcases eq_of_ofTokens_error laid.endless rfl h with
    ⟨pre, t, post, -, -, tokens, -, -, -, span⟩ | ⟨-, t, -, last, -, span⟩
  · exact ⟨_, span, laid.inside (tokens ▸ List.mem_append_right pre List.mem_cons_self)⟩
  · exact ⟨_, span, (laid.inside (List.mem_of_getLast? last)).point⟩

/-- No span in the items of a source has to be moved. -/
theorem Item.map_confine {items : List Item}
    (lexed : (Lexed.ofSource source).tokens = .ok tokens) (read : ofTokens tokens = .ok items) :
    items.map (mapSpan (Span.confine source)) = items := by
  obtain ⟨ps, laid, rfl⟩ := Lexed.laid_of_ofSource lexed
  exact (Grammar.YieldsItems.of_read laid.endless rfl read).unmoved Span.keepsJoins_confine
    fun t ht => Span.confine_eq_self.2 (laid.inside ht)

/-! Reports. -/

/-- If there is a span, it lies inside the text. -/
def SpanInside (source : List Char) (s : Option Span) : Prop := ∀ t ∈ s, t.Inside source

theorem spanInside_of_map {s : Option Span} (h : s.map (Span.confine source) = s) :
    SpanInside source s := by
  rintro t ht
  rw [Option.mem_def] at ht
  subst ht
  exact Span.confine_eq_self.1 (Option.some.inj h)

theorem spanInside_of_warnings {ws : Array Warning}
    (h : (Renaming.spans (Span.confine source) Span.confine_origin).warnings ws = ws) :
    ∀ w ∈ ws, SpanInside source w.span := by
  have all : ws.map (·.rename (.spans (Span.confine source) Span.confine_origin)) = ws.map id :=
    h.trans (Array.map_id _).symm
  intro w hw
  exact spanInside_of_map (congrArg Warning.span (Array.map_inj_left.1 all w hw))

namespace Program

/-- The spans of what is reported for a source lie inside it. -/
theorem spanInside_of_build {items : List Item} (options : Options)
    (lexed : (Lexed.ofSource source).tokens = .ok tokens) (read : Item.ofTokens tokens = .ok items) :
    match build options items with
    | .ok (_, ws) => ∀ w ∈ ws, SpanInside source w.span
    | .error s => SpanInside source s.failure.span ∧ ∀ w ∈ s.warnings, SpanInside source w.span := by
  have moved := @build_spans (Span.confine source) Span.confine_origin options items
  rw [Item.map_confine lexed read] at moved
  cases hb : build options items with
  | ok b =>
    rw [hb] at moved
    exact spanInside_of_warnings (congrArg Prod.snd (Except.ok.inj moved)).symm
  | error s =>
    rw [hb] at moved
    have same := (Except.error.inj moved).symm
    refine ⟨spanInside_of_map (congrArg (·.failure.span) same), spanInside_of_warnings ?_⟩
    exact (Renaming.earlier_spans _).symm.trans (congrArg Stop.warnings same)

end Program
end ClassAsm
