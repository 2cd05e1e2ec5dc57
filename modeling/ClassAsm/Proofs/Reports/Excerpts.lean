import ClassAsm.Proofs.Reports.Lines
import ClassAsm.Proofs.Reports.Spans

/-! The excerpt of a report. It shows the line where the span starts with the lines next to it, each
behind a gutter of one width, and a row of carets that starts at the column of the span. Columns
count bytes and a row shows characters, so the carets stand under the characters of the span exactly
if none of them, and none before them on the line, takes more than a byte. -/

namespace ClassAsm

/-! Texts of blanks and numbers. -/

theorem toList_pushn (s : String) (c : Char) (n : Nat) :
    (s.pushn c n).toList = s.toList ++ List.replicate n c := by
  rw [String.pushn_eq_repeat_push]
  induction n with
  | zero => simp [Nat.repeat]
  | succ n ih => simp [Nat.repeat, ih, List.replicate_succ']

theorem pushn_eq (c : Char) (n : Nat) : "".pushn c n = String.ofList (List.replicate n c) := by
  apply String.toList_inj.1
  rw [toList_pushn]
  simp

theorem length_toString_le {n m : Nat} (h : n ≤ m) : (toString n).length ≤ (toString m).length := by
  have digits (k : Nat) : (toString k).length = (Nat.toDigits 10 k).length := String.length_ofList
  rw [digits, digits, Nat.length_toDigits_le_iff (by decide) Nat.length_toDigits_pos]
  have room : m < 10 ^ (Nat.toDigits 10 m).length :=
    (Nat.length_toDigits_le_iff (by decide) Nat.length_toDigits_pos).1 le_rfl
  exact h.trans_lt room

def clamped (source : List Char) (pos : Nat) : Nat := min pos (utf8 source).length

def newlinesBefore (source : List Char) (pos : Nat) : Nat :=
  ((utf8 source).take (clamped source pos)).count newline

namespace Diagnostic

/-- The row shows a text behind a gutter of the given width, with a label at the right of it. -/
structure IsRow (gutter : Nat) (label mark text row : String) : Prop where
  exists_blanks : ∃ blanks : String, (∀ c ∈ blanks.toList, c = ' ') ∧
    (blanks ++ label).length = gutter ∧ row = blanks ++ label ++ " " ++ mark ++ " " ++ text

theorem isRow_row {gutter : Nat} {label : String} (fits : label.length ≤ gutter)
    (mark text : String) : IsRow gutter label mark text (row gutter label mark text) := by
  have blanks := toList_pushn "" ' ' (gutter - label.length)
  refine ⟨⟨"".pushn ' ' (gutter - label.length), fun c hc => ?_, ?_, rfl⟩⟩
  · rw [blanks] at hc
    exact List.eq_of_mem_replicate hc
  · rw [String.length_append, ← String.length_toList, blanks]
    simpa using Nat.sub_add_cancel fits

/-- The rows of an excerpt. -/
structure Rows where
  head : String
  above : Option String
  here : String
  carets : String
  below : Option String

namespace Rows

def toList (r : Rows) : List String :=
  r.head :: (r.above.toList ++ [r.here, r.carets] ++ r.below.toList)

def heading (path : String) (k c w : Nat) : String :=
  "In file '" ++ path ++ "' at line " ++ toString (k + 1) ++ ":" ++ toString (c + 1) ++
    (if w = 1 then "" else "-" ++ toString (c + w)) ++ " :"

/-- The rows show line `k` of a text and those next to it, and carets under `w` columns from the
column `c` on. The line above is there if there is one, and so is the one below. -/
structure Shows (r : Rows) (all : List (List Char)) (path : String) (k c w : Nat) : Prop where
  head : r.head = heading path k c w
  previous : r.above.isSome ↔ 0 < k
  next : r.below.isSome ↔ k + 1 < all.length
  aligned : ∃ gutter,
    (∀ row, r.above = some row → ∃ l, all[k - 1]? = some l ∧
      IsRow gutter (toString k) "|" (String.ofList l) row) ∧
    (∃ l, all[k]? = some l ∧ IsRow gutter (toString (k + 1)) ">" (String.ofList l) r.here) ∧
    IsRow gutter "" "|" (String.ofList (List.replicate c ' ' ++ List.replicate w '^')) r.carets ∧
    ∀ row, r.below = some row → ∃ l, all[k + 1]? = some l ∧
      IsRow gutter (toString (k + 2)) "|" (String.ofList l) row

theorem heading_eq (path : String) (k c w : Nat) : heading path k c w =
    let place := s!"line {k + 1}:{c + 1}" ++ if w = 1 then "" else s!"-{c + w}"
    s!"In file '{path}' at {place} :" := by
  apply String.toList_inj.1
  by_cases one : w = 1 <;> simp [heading, one, toString]

end Rows

theorem exists_rows (source : List Char) (path : String) (span : Span) : ∃ r : Rows,
    r.toList = excerpt source path span ∧
      r.Shows (source.splitOn '\n') path (Position.ofOffset source span.start).line (caretRange source span).1
        (caretRange source span).2 := by
  obtain ⟨l, hl, -⟩ := (Position.stands_ofOffset source span.start).exists_line
  rw [lines_eq_splitOn] at hl
  have here := (List.getElem?_eq_some_iff.1 hl).1
  unfold excerpt
  rw [lines_eq_splitOn]
  generalize (Position.ofOffset source span.start).line = k at hl here ⊢
  generalize caretRange source span = range
  generalize source.splitOn '\n' = all at hl here ⊢
  obtain ⟨c, w⟩ := range
  let text (n : Nat) : String := String.ofList (all[n]?.getD [])
  let gutter := (toString (k + 2)).length
  have line {n : Nat} (h : n < all.length) : all[n]? = some (all[n]?.getD []) := by
    rw [List.getElem?_eq_getElem h]
    rfl
  have digits {n : Nat} (h : n ≤ k + 2) : (toString n).length ≤ gutter := length_toString_le h
  refine ⟨{
    head := Rows.heading path k c w
    above := if k = 0 then none else some (row gutter (toString k) "|" (text (k - 1)))
    here := row gutter (toString (k + 1)) ">" (text k)
    carets := row gutter "" "|" ("".pushn ' ' c ++ "".pushn '^' w)
    below := if k + 1 < all.length then
      some (row gutter (toString (k + 2)) "|" (text (k + 1))) else none }, ?_, ?_⟩
  · rw [Rows.toList, Rows.heading_eq, apply_ite Option.toList, apply_ite Option.toList]
    rfl
  · exact
      { head := rfl
        previous := by split <;> simp <;> omega
        next := by split <;> simp [*]
        aligned := by
          refine ⟨gutter, fun r shown => ?_, ⟨_, line here, ?_⟩, ?_, fun r shown => ?_⟩
          · obtain ⟨later, same⟩ := Option.ite_none_left_eq_some.1 shown
            obtain rfl := Option.some.inj same
            exact ⟨_, line (by omega), isRow_row (digits (by omega)) _ _⟩
          · exact isRow_row (digits (by omega)) _ _
          · rw [String.ofList_append, ← pushn_eq, ← pushn_eq]
            exact isRow_row (Nat.zero_le _) _ _
          · obtain ⟨more, same⟩ := Option.ite_none_right_eq_some.1 shown
            obtain rfl := Option.some.inj same
            exact ⟨_, line more, isRow_row (digits le_rfl) _ _⟩ }

theorem newlinesBefore_eq (source : List Char) (pos : Nat) :
    newlinesBefore source pos = (Position.ofOffset source pos).line := by
  rw [newlinesBefore, clamped, length_utf8]
  exact (Position.stands_ofOffset source pos).count

theorem column_sub {source : List Char} {a b : Nat}
    (same : (Position.ofOffset source b).line = (Position.ofOffset source a).line) :
    (Position.ofOffset source b).column - (Position.ofOffset source a).column =
      clamped source b - clamped source a := by
  have ha := (Position.stands_ofOffset source a).offset
  have hb := (Position.stands_ofOffset source b).offset
  rw [same] at hb
  rw [clamped, clamped, length_utf8, ← ha, ← hb, Nat.add_sub_add_left]

theorem caretRange_snd {source line : List Char} {span : Span}
    (hl : (lines source)[(Position.ofOffset source span.start).line]? = some line) :
    (caretRange source span).2 =
      if newlinesBefore source span.stop = (Position.ofOffset source span.start).line then
        max 1 (clamped source span.stop - clamped source span.start)
      else max 1 ((utf8 line).length - (Position.ofOffset source span.start).column) := by
  rw [newlinesBefore_eq, caretRange]
  dsimp only
  split
  case isTrue same => rw [column_sub same, Nat.max_comm]
  case isFalse => rw [hl, Option.getD_some, length_utf8, Nat.max_comm]

/-- A report with a span shows the line on which the clamped start of the span lies, with the lines
next to it, and carets from the column of the start on: up to the clamped end if it is on the line,
up to the end of the line if not, and always one. This is so for every span, in the text or not, in
order or not. -/
theorem render_shows_lines (d : Diagnostic) (source : List Char) (path : String) (span : Span) :
    ∃ (k c w : Nat) (line : List Char) (rows : Rows),
      span.position source = ⟨k, c⟩ ∧
      k = newlinesBefore source span.start ∧
      (source.splitOn '\n')[k]? = some line ∧
      lineStart source k + c = clamped source span.start ∧
      c ≤ (utf8 line).length ∧
      w = (if newlinesBefore source span.stop = k then
          max 1 (clamped source span.stop - clamped source span.start)
        else max 1 ((utf8 line).length - c)) ∧
      rows.Shows (source.splitOn '\n') path k c w ∧
      { d with span := some span }.render source path =
        "\n".intercalate (rows.toList ++ [d.summary]) := by
  have stands := Position.stands_ofOffset source span.start
  obtain ⟨line, hl, within⟩ := stands.exists_line
  obtain ⟨rows, shown, shows⟩ := exists_rows source path span
  refine ⟨_, _, _, line, rows, rfl, ?_, ?_, ?_, ?_, caretRange_snd hl, shows, ?_⟩
  · exact (newlinesBefore_eq source span.start).symm
  · rwa [← lines_eq_splitOn]
  · rw [clamped, length_utf8]
    exact stands.offset
  · rwa [length_utf8]
  · rw [shown]
    rfl

end Diagnostic

/-! Marked characters. -/

theorem exists_between {a b a' b' : List Char} (same : a ++ b = a' ++ b')
    (le : byteLength a ≤ byteLength a') : ∃ m, a' = a ++ m ∧ b = m ++ b' := by
  obtain ⟨m, ha, hb⟩ | ⟨m, ha, hb⟩ := List.append_eq_append_iff.1 same
  · exact ⟨m, ha, hb⟩
  · rw [ha, byteLength_append] at le
    obtain rfl : m = [] := by
      by_contra some
      have := byteLength_pos some
      omega
    exact ⟨[], by simpa using ha.symm, by simpa using hb.symm⟩

theorem Around.cut {source front l back lead marked rest : List Char}
    (around : Around source front l back) (split : source = lead ++ (marked ++ rest))
    (oneLine : '\n' ∉ marked) (start : byteLength front ≤ byteLength lead)
    (within : byteLength lead ≤ byteLength front + byteLength l) :
    ∃ before after, lead = front ++ before ∧ l = before ++ (marked ++ after) := by
  obtain ⟨before, rfl, hl⟩ := exists_between (around.whole.symm.trans split) start
  rw [byteLength_append] at within
  obtain ⟨left, rfl, hb⟩ := exists_between hl.symm (by omega)
  obtain ⟨m, hm, hr⟩ | ⟨m, hm, hr⟩ := List.append_eq_append_iff.1 hb
  · exact ⟨before, m, rfl, by rw [hm]⟩
  -- what the piece has behind the line can only start with a newline
  · cases m with
    | nil => exact ⟨before, [], rfl, by rw [hm, List.append_nil, List.append_nil]⟩
    | cons c m =>
      have mem : c ∈ marked := by simp [hm]
      rcases around.ends with none | new
      · simp [none] at hr
      · rw [hr] at new
        cases new
        exact absurd mem oneLine

theorem byteLength_eq_length_iff {cs : List Char} :
    byteLength cs = cs.length ↔ ∀ c ∈ cs, c.utf8Size = 1 := by
  have le (cs : List Char) : cs.length ≤ byteLength cs := by
    induction cs with
    | nil => exact Nat.zero_le _
    | cons c cs ih =>
      have := c.utf8Size_pos
      rw [List.length_cons, byteLength_cons]
      omega
  induction cs with
  | nil => exact ⟨fun _ _ mem => absurd mem List.not_mem_nil, fun _ => rfl⟩
  | cons c cs ih =>
    have := c.utf8Size_pos
    have := le cs
    rw [List.length_cons, byteLength_cons, List.forall_mem_cons]
    constructor
    · intro same
      exact ⟨by omega, ih.1 (by omega)⟩
    · rintro ⟨one, rest⟩
      have := ih.2 rest
      omega

theorem Span.exists_of_slice? {source text : List Char} {span : Span}
    (h : span.slice? source = some text) : ∃ lead tail, source = lead ++ (text ++ tail) ∧
      byteLength lead = span.start ∧ byteLength text = span.stop - span.start := by
  simp only [Span.slice?, Option.bind_eq_bind, Option.bind_eq_some_iff, Prod.exists] at h
  obtain ⟨lead, rest, hl, taken, tail, ht, same⟩ := h
  obtain rfl := Option.some.inj same
  obtain ⟨rfl, start⟩ := splitBytes_eq_some_iff.1 hl
  obtain ⟨rfl, width⟩ := splitBytes_eq_some_iff.1 ht
  exact ⟨lead, tail, rfl, start, width⟩

theorem newlinesBefore_append (a b : List Char) :
    newlinesBefore (a ++ b) (byteLength a) = a.count '\n' := by
  have inside : clamped (a ++ b) (byteLength a) = (utf8 a).length := by
    rw [clamped, utf8_append, List.length_append, ← length_utf8]
    omega
  rw [newlinesBefore, inside, utf8_append, List.take_left', count_utf8]
  rfl

namespace Diagnostic

theorem getElem?_carets {lead : List Char} (none : '^' ∉ lead) (w n : Nat) :
    (lead ++ List.replicate w '^')[n]? = some '^' ↔ lead.length ≤ n ∧ n < lead.length + w := by
  by_cases inside : n < lead.length
  · rw [List.getElem?_append_left inside]
    constructor
    · intro h
      exact absurd (List.mem_of_getElem? h) none
    · intro h
      omega
  · rw [List.getElem?_append_right (by omega), List.getElem?_replicate]
    constructor
    · intro h
      have := (Option.ite_none_right_eq_some.1 h).1
      omega
    · intro h
      rw [if_pos (by omega)]

theorem IsRow.exists_lead {gutter : Nat} {label mark text row : String}
    (h : IsRow gutter label mark text row) : ∃ lead : List Char,
      (∀ c ∈ lead, c = ' ' ∨ c ∈ label.toList ∨ c ∈ mark.toList) ∧
      lead.length = gutter + mark.length + 2 ∧ row.toList = lead ++ text.toList := by
  obtain ⟨blanks, blank, length, rfl⟩ := h.exists_blanks
  refine ⟨(blanks ++ label ++ " " ++ mark ++ " ").toList, fun c mem => ?_, ?_, ?_⟩
  · simp only [String.toList_append, List.mem_append] at mem
    rcases mem with (((inBlanks | inLabel) | inGap) | inMark) | inGap
    · exact .inl (blank c inBlanks)
    · exact .inr (.inl inLabel)
    · exact .inl (List.mem_singleton.1 inGap)
    · exact .inr (.inr inMark)
    · exact .inl (List.mem_singleton.1 inGap)
  · rw [String.length_toList, String.length_append, String.length_append, String.length_append, length,
      show " ".length = 1 from rfl]
    omega
  · rw [← String.toList_append]

/-- The carets of a row stand under so many characters of another behind the first ones, and under
no others. -/
def IsUnder (carets : String) (skip count : Nat) : Prop :=
  ∀ n, carets.toList[n]? = some '^' ↔ skip ≤ n ∧ n < skip + count

theorem isUnder_iff {gutter c w skip count : Nat} {row : String}
    (h : IsRow gutter "" "|" (String.ofList (List.replicate c ' ' ++ List.replicate w '^')) row)
    (carets : 0 < w) (some : 0 < count) :
    IsUnder row (gutter + 3 + skip) count ↔ c = skip ∧ w = count := by
  obtain ⟨lead, plain, length, he⟩ := h.exists_lead
  rw [String.toList_ofList, ← List.append_assoc] at he
  have none : '^' ∉ lead ++ List.replicate c ' ' := by
    intro mem
    rcases List.mem_append.1 mem with mem | mem
    · exact absurd (plain _ mem) (by decide)
    · exact absurd (List.eq_of_mem_replicate mem) (by decide)
  have start : (lead ++ List.replicate c ' ').length = gutter + 3 + c := by
    rw [List.length_append, length, List.length_replicate]
    rfl
  simp only [IsUnder, he, getElem?_carets none, start]
  constructor
  · intro same
    -- the first and the last of both
    have := same (gutter + 3 + c)
    have := same (gutter + 3 + c + w - 1)
    have := same (gutter + 3 + skip)
    have := same (gutter + 3 + skip + count - 1)
    omega
  · rintro ⟨rfl, rfl⟩ n
    rfl

theorem caretRange_eq {source marked : List Char} {span : Span}
    (hs : span.slice? source = some marked) (nonempty : marked ≠ []) (oneLine : '\n' ∉ marked) :
    ∃ before after, (lines source)[(Position.ofOffset source span.start).line]? =
        some (before ++ (marked ++ after)) ∧
      lineStart source (Position.ofOffset source span.start).line + byteLength before = span.start ∧
      caretRange source span = (byteLength before, byteLength marked) := by
  obtain ⟨lead, tail, whole, start, width⟩ := Span.exists_of_slice? hs
  have some := byteLength_pos nonempty
  have length : byteLength source = byteLength lead + (byteLength marked + byteLength tail) := by
    rw [whole, byteLength_append, byteLength_append]
  obtain ⟨line, hl, within⟩ := (Position.stands_ofOffset source span.start).exists_line
  have offset := (Position.stands_ofOffset source span.start).offset
  obtain ⟨front, back, around, lineAt, count⟩ := exists_around hl
  obtain ⟨before, after, rfl, rfl⟩ := around.cut whole oneLine (by omega) (by omega)
  rw [byteLength_append] at start length
  -- the text ends on the line it starts on
  have same : newlinesBefore source span.stop = (Position.ofOffset source span.start).line := by
    have stop : span.stop = byteLength (front ++ before ++ marked) := by
      rw [byteLength_append, byteLength_append]
      omega
    have inLine : '\n' ∉ before := fun mem => around.inLine (List.mem_append_left _ mem)
    rw [← count, stop, whole, ← List.append_assoc, newlinesBefore_append, List.append_assoc,
      List.count_append, List.count_append, List.count_eq_zero_of_not_mem oneLine,
      List.count_eq_zero_of_not_mem inLine]
    rfl
  refine ⟨before, after, hl, by omega, Prod.ext ?_ ?_⟩
  · change (Position.ofOffset source span.start).column = byteLength before
    omega
  · change (caretRange source span).2 = byteLength marked
    rw [caretRange_snd hl, if_pos same, clamped, clamped, length_utf8]
    omega

/-- A text on one line is marked by its carets exactly if none of its characters, and none before
them on the line, takes more than a byte. -/
theorem carets_mark_narrow_texts (d : Diagnostic) (path : String) {source marked : List Char}
    {span : Span} (hs : span.slice? source = some marked) (nonempty : marked ≠ [])
    (oneLine : '\n' ∉ marked) :
    ∃ (k : Nat) (lead before after : List Char) (rows : Rows),
      (source.splitOn '\n')[k]? = some (before ++ (marked ++ after)) ∧
      lineStart source k + (utf8 before).length = span.start ∧
      { d with span := some span }.render source path =
        "\n".intercalate (rows.toList ++ [d.summary]) ∧
      rows.here.toList = lead ++ (before ++ (marked ++ after)) ∧
      (IsUnder rows.carets (lead.length + before.length) marked.length ↔
        ∀ c ∈ before ++ marked, c.utf8Size = 1) := by
  obtain ⟨before, after, hl, start, range⟩ := caretRange_eq hs nonempty oneLine
  obtain ⟨rows, shown, shows⟩ := exists_rows source path span
  obtain ⟨gutter, -, ⟨line, hk, here⟩, carets, -⟩ := shows.aligned
  rw [lines_eq_splitOn] at hl
  obtain rfl := Option.some.inj (hk.symm.trans hl)
  obtain ⟨lead, -, length, he⟩ := here.exists_lead
  rw [range] at carets
  rw [String.toList_ofList] at he
  have length : lead.length = gutter + 3 := length
  refine ⟨_, lead, before, after, rows, hl, ?_, ?_, he, ?_⟩
  · rw [length_utf8, start]
  · rw [shown]
    rfl
  · rw [length, isUnder_iff carets (byteLength_pos nonempty) (List.length_pos_iff.2 nonempty),
      byteLength_eq_length_iff, byteLength_eq_length_iff, List.forall_mem_append]

/-- The same for the first two characters of a second line. -/
theorem carets_mark_narrow_texts_ab :
    let source := "line1\nab cd\nline3".toList
    let d : Diagnostic := ⟨.error, 12, "TypeConflict", "bad", none⟩
    Span.slice? ⟨6, 8⟩ source = some "ab".toList ∧ "ab".toList ≠ [] ∧ '\n' ∉ "ab".toList ∧
      ∃ (k : Nat) (lead before after : List Char) (rows : Rows),
        (source.splitOn '\n')[k]? = some (before ++ ("ab".toList ++ after)) ∧
        lineStart source k + (utf8 before).length = 6 ∧
        { d with span := some ⟨6, 8⟩ }.render source "x.lia" =
          "\n".intercalate (rows.toList ++ [d.summary]) ∧
        rows.here.toList = lead ++ (before ++ ("ab".toList ++ after)) ∧
        (IsUnder rows.carets (lead.length + before.length) "ab".toList.length ↔
          ∀ c ∈ before ++ "ab".toList, c.utf8Size = 1) := by
  intro source d
  have slice : Span.slice? ⟨6, 8⟩ source = some "ab".toList := by decide
  exact ⟨slice, by decide, by decide,
    carets_mark_narrow_texts d "x.lia" slice (by decide) (by decide)⟩

/-- Behind a character of two bytes the caret stands one place too far to the right. -/
theorem carets_miss_behind_wide :
    let source := "é x".toList
    Span.slice? ⟨3, 4⟩ source = some ['x'] ∧
      excerpt source "x.lia" ⟨3, 4⟩ = ["In file 'x.lia' at line 1:4 :", "1 > é x", "  |    ^"] ∧
      "1 > é x".toList[6]? = some 'x' ∧ ¬ IsUnder "  |    ^" 6 1 := by
  refine ⟨by decide, by decide +kernel, by decide, fun under => ?_⟩
  exact absurd ((under 6).2 (by decide)) (by decide)

end Diagnostic
end ClassAsm
