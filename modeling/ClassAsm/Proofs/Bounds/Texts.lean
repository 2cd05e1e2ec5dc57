import ClassAsm.Proofs.Reports.Spans
import ClassAsm.Proofs.Source.Cursor

/-! What is looked up in a source, in its tokens and in its lines is there. Each lookup is written
out here, with no result where there is nothing to be found, and has the result that is used. -/

namespace ClassAsm

/-! The marks of a type name. -/

theorem byteLength_reverse (cs : List Char) : byteLength cs.reverse = byteLength cs := by
  induction cs with
  | nil => rfl
  | cons c cs ih =>
    rw [List.reverse_cons, byteLength_append, ih, Nat.add_comm, ← byteLength_append]
    rfl

namespace TypeName

open Cursor (slice? slice?_eq)

/-- The text without a mark at its end, unless nothing else is left. -/
def cutLast? (text : List Char) : Option (List Char × Bool) :=
  if 1 < byteLength text ∧ text.getLast? = some '_' then
    (slice? text 0 (byteLength text - 1)).map (·, true)
  else some (text, false)

def cutFirst? (text : List Char) : Option (List Char × Bool) :=
  if 1 < byteLength text ∧ text.head? = some '_' then
    (slice? text 1 (byteLength text)).map (·, true)
  else some (text, false)

def parse? (text : List Char) : Option TypeName := do
  let (rest, byRef) ← cutLast? text
  let (base, out) ← cutFirst? rest
  return ⟨String.ofList base, byRef, out⟩

theorem unmark_eq (cs : List Char) : unmark cs =
    if 1 < byteLength cs ∧ cs.head? = some '_' then (cs.tail, true) else (cs, false) := by
  unfold unmark
  split
  · next c cs =>
    have two : 1 < byteLength ('_' :: c :: cs) := by
      rw [byteLength_cons, byteLength_cons]
      have := c.utf8Size_pos
      have := '_'.utf8Size_pos
      omega
    rw [if_pos ⟨two, rfl⟩]
    rfl
  · next plain =>
    rw [if_neg]
    rintro ⟨two, head⟩
    obtain ⟨rest, rfl⟩ := List.head?_eq_some_iff.1 head
    cases rest with
    | nil => exact absurd two (by decide)
    | cons c rest => exact plain c rest rfl

theorem cutFirst?_eq (text : List Char) : cutFirst? text = some (unmark text) := by
  rw [cutFirst?, unmark_eq]
  split
  · next marked =>
    obtain ⟨base, rfl⟩ := List.head?_eq_some_iff.1 marked.2
    have cut : slice? ('_' :: base) (byteLength ['_']) (byteLength (['_'] ++ base)) = some base :=
      slice?_eq rfl (List.append_nil _).symm
    exact congrArg (Option.map _) cut
  · rfl

theorem cutLast?_eq (text : List Char) :
    cutLast? text = some ((unmark text.reverse).1.reverse, (unmark text.reverse).2) := by
  rw [cutLast?, unmark_eq, byteLength_reverse, List.head?_reverse]
  split
  · next marked =>
    obtain ⟨base, rfl⟩ := List.getLast?_eq_some_iff.1 marked.2
    have stop : byteLength (base ++ ['_']) - 1 = byteLength ([] ++ base) := by
      rw [Cursor.byteLength_ascii (by decide), Nat.add_sub_cancel]
      rfl
    have cut : slice? (base ++ ['_']) 0 (byteLength ([] ++ base)) = some base :=
      slice?_eq (show base ++ ['_'] = [] ++ (base ++ ['_']) from rfl) rfl
    rw [stop, cut, List.reverse_append, List.reverse_singleton, List.singleton_append,
      List.tail_cons, List.reverse_reverse]
    rfl
  · rw [List.reverse_reverse]

/-- Marks are whole characters, so the name of a class is there to be cut out. -/
theorem parse?_eq (text : String) : parse? text.toList = some (parse text) := by
  simp only [parse?, cutLast?_eq, cutFirst?_eq, Option.bind_eq_bind, Option.bind_some]
  rfl

end TypeName

/-! The cursor of the reader. -/

namespace Grammar

/-- The failure at the cursor; at the end of the text the token before it is looked up. -/
def failureAt (tokens : List Token) (t : Token) (expected : Expected) : Nat → Option Failure
  | 0 => some (failure none t expected)
  | i + 1 => (tokens[i]?).map fun last => failure (some last) t expected

/-- The end of reading, with the cursor at the end mark. -/
def endAt (tokens : List Token) (items : List Item) (p : Place) (t : Token) (i : Nat) :
    Option (Except Failure (List Item)) :=
  match p with
  | .top => some (.ok items.reverse)
  | p => match step p t with
    | .error expected => (failureAt tokens t expected i).map .error
    | .ok _ => (failureAt tokens t .topLevel i).map .error

/-- Reads on with a cursor into the tokens. The token at the cursor is looked up, and the one ahead
of it, which is the last one again where the cursor is at the last one. -/
def readAt (tokens : List Token) (items : List Item) (p : Place) (i : Nat) :
    Option (Except Failure (List Item)) :=
  match h : tokens[i]?, tokens[min (i + 1) (tokens.length - 1)]? with
  | some t, some _ =>
    have : i < tokens.length := (List.getElem?_eq_some_iff.1 h).1
    if t.kind = .eof then endAt tokens items p t i
    else match step p t with
      | .ok (.place p) => readAt tokens items p (i + 1)
      | .ok (.item item) => readAt tokens (item :: items) .top (i + 1)
      | .error expected => (failureAt tokens t expected i).map .error
  | _, _ => none
termination_by tokens.length - i

def before (tokens : List Token) : Nat → Option Token
  | 0 => none
  | i + 1 => tokens[i]?

variable {tokens : List Token} {i : Nat}

theorem failureAt_eq (h : i < tokens.length) (t : Token) (expected : Expected) :
    failureAt tokens t expected i = some (failure (before tokens i) t expected) := by
  cases i with
  | zero => rfl
  | succ i =>
    have lt : i < tokens.length := Nat.lt_of_succ_lt h
    simp [failureAt, before, List.getElem?_eq_getElem lt]

theorem endAt_eq (h : i < tokens.length) (items : List Item) (p : Place) (t : Token) :
    endAt tokens items p t i = some (read.atEnd items (before tokens i) p t) := by
  unfold endAt
  simp only [failureAt_eq h]
  split
  · rfl
  · next other =>
    rw [read.atEnd.eq_2 _ _ _ _ other]
    cases step p t <;> rfl

/-- The cursor stays on the tokens if the last of them is an end mark. -/
theorem readAt_eq (ends : ∀ t, tokens.getLast? = some t → t.kind = .eof) (items : List Item)
    (p : Place) (h : i < tokens.length) :
    readAt tokens items p i = some (read items (before tokens i) p (tokens.drop i)) := by
  have ahead : min (i + 1) (tokens.length - 1) < tokens.length := by omega
  -- the induction is on the tokens that are left from the cursor on
  induction hn : tokens.length - i generalizing i items p with
  | zero => omega
  | succ n ih =>
    rw [readAt, List.drop_eq_getElem_cons h, read]
    split
    · next t _ found _ =>
      obtain ⟨-, rfl⟩ := List.getElem?_eq_some_iff.1 found
      split
      · exact endAt_eq h items p _
      next more =>
      -- an end mark is last, so there are tokens behind any other
      have further : i + 1 < tokens.length := by
        refine lt_of_le_of_ne h fun last => more (ends _ ?_)
        rw [List.getLast?_eq_getElem?, ← last]
        exact List.getElem?_eq_getElem h
      have rest (items : List Item) (p : Place) := ih items p further (by omega) (by omega)
      simp only [failureAt_eq h, rest, before, List.getElem?_eq_getElem h]
      cases step p tokens[i] with
      | error expected => rfl
      | ok next => cases next <;> rfl
    · next missing =>
      exact (missing _ _ (List.getElem?_eq_getElem h) (List.getElem?_eq_getElem ahead)).elim

end Grammar

/-- The cursor stays on the tokens of a source until all is read or a token does not fit. -/
theorem Item.readAt_eq {source : List Char} {tokens : List Token}
    (lexed : (Lexed.ofSource source).tokens = .ok tokens) :
    Grammar.readAt tokens [] .top 0 = some (ofTokens tokens) := by
  obtain ⟨ps, -, rfl⟩ := Lexed.laid_of_ofSource lexed
  refine Grammar.readAt_eq (fun t ht => ?_) [] .top (by simp)
  rw [List.getLast?_concat] at ht
  exact Option.some.inj ht ▸ rfl

/-! The lines of a source. -/

theorem length_lines (source : List Char) : (lines source).length = source.count '\n' + 1 := by
  induction source with
  | nil => rfl
  | cons c cs ih =>
    rw [lines, List.foldr_cons, ← lines]
    by_cases new : c = '\n'
    · simp [new, ih]
    · rw [if_neg new, List.count_cons_of_ne new, ← ih]
      cases hl : lines cs with
      | nil => simp [hl] at ih
      | cons l ls => rfl

namespace Position

open Cursor (bytes)

def pass (p : Position) (b : UInt8) : Position :=
  if Char.ofUInt8 b = '\n' then ⟨p.line + 1, 0⟩ else ⟨p.line, p.column + 1⟩

/-- The bytes up to an offset, which may be past the end, and where their last line starts. -/
def ofOffset? (source : List Char) (offset : Nat) : Option Position := do
  let pos := min offset (bytes source).length
  let before ← if pos ≤ (bytes source).length then some ((bytes source).take pos) else none
  let line := before.countP (Char.ofUInt8 · = '\n')
  let start := match before.reverse.findIdx? (Char.ofUInt8 · = '\n') with
    | some i => pos - i
    | none => 0
  return ⟨line, pos - start⟩

theorem foldl_pass {bs : List UInt8} (inLine : ∀ b ∈ bs, Char.ofUInt8 b ≠ '\n') (p : Position) :
    bs.foldl pass p = ⟨p.line, p.column + bs.length⟩ := by
  induction bs generalizing p with
  | nil => rfl
  | cons b bs ih =>
    obtain ⟨here, rest⟩ := List.forall_mem_cons.1 inLine
    rw [List.foldl_cons, pass, if_neg here, ih rest, List.length_cons, Nat.add_assoc,
      Nat.add_comm 1]

theorem advance_eq_foldl (cs : List Char) (pos : Nat) (here : Position) :
    advance cs pos here = ((bytes cs).take pos).foldl pass here := by
  have inLine {c : Char} (other : c ≠ '\n') : ∀ b ∈ String.utf8EncodeChar c,
      Char.ofUInt8 b ≠ '\n' := fun b hb he => other (Cursor.eq_of_mem_encode (by decide) hb he)
  have front (c : Char) (rest : List Char) :
      bytes (c :: rest) = String.utf8EncodeChar c ++ bytes rest := List.flatMap_cons
  fun_induction advance cs pos here with
  | case1 => rw [show bytes [] = [] from rfl, List.take_nil, List.foldl_nil]
  | case2 c rest pos here less =>
    have size := String.length_utf8EncodeChar c
    rw [front, List.take_append_of_le_length (size ▸ less.le)]
    by_cases new : c = '\n'
    · subst new
      obtain rfl : pos = 0 := Nat.lt_one_iff.1 less
      rfl
    · rw [foldl_pass fun b hb => inLine new b (List.mem_of_mem_take hb), List.length_take, size,
        Nat.min_eq_left less.le]
  | case3 rest pos here more ih =>
    obtain ⟨n, rfl⟩ : ∃ n, pos = n + 1 :=
      Nat.exists_eq_succ_of_ne_zero fun he => more (he ▸ by decide)
    rw [front, show String.utf8EncodeChar '\n' = [10] from rfl, List.singleton_append,
      List.take_succ_cons, List.foldl_cons, ih]
    rfl
  | case4 c rest pos here more new ih =>
    have size := String.length_utf8EncodeChar c
    rw [front, List.take_append, List.take_of_length_le (size ▸ Nat.not_lt.1 more), List.foldl_append,
      foldl_pass (inLine new), size, ih]

theorem foldl_pass_zero (bs : List UInt8) : bs.foldl pass ⟨0, 0⟩ =
    ⟨bs.countP (Char.ofUInt8 · = '\n'), bs.length -
      match bs.reverse.findIdx? (Char.ofUInt8 · = '\n') with
      | some i => bs.length - i
      | none => 0⟩ := by
  induction bs using List.reverseRecOn with
  | nil => rfl
  | append_singleton bs b ih =>
    rw [List.foldl_append, ih, List.reverse_concat, List.findIdx?_cons, List.countP_append,
      List.length_append]
    by_cases new : Char.ofUInt8 b = '\n'
    · simp [pass, new]
    · cases found : bs.reverse.findIdx? (Char.ofUInt8 · = '\n') with
      | none => simp [pass, new]
      | some i =>
        have := (List.findIdx?_eq_some_iff_getElem.1 found).1
        rw [List.length_reverse] at this
        simp [pass, new]
        omega

theorem ofOffset?_eq (source : List Char) (offset : Nat) :
    ofOffset? source offset = some (ofOffset source offset) := by
  have le := Nat.min_le_right offset (bytes source).length
  have front : (bytes source).take (min offset (bytes source).length) =
      (bytes source).take offset := by
    rw [← List.take_take, List.take_length]
  rw [ofOffset, advance_eq_foldl, foldl_pass_zero, List.length_take, ← front]
  simp only [ofOffset?, if_pos le]
  rfl

theorem line_advance_le (cs : List Char) (pos : Nat) (here : Position) :
    (advance cs pos here).line ≤ here.line + cs.count '\n' := by
  fun_induction advance cs pos here with
  | case1 => exact Nat.le_add_right _ _
  | case2 => exact Nat.le_add_right _ _
  | case3 rest pos here more ih =>
    rw [List.count_cons_self]
    exact ih.trans (by dsimp only; omega)
  | case4 c rest pos here more other ih =>
    rw [List.count_cons_of_ne other]
    exact ih

/-- A position is on a line of the text, whatever the offset is. -/
theorem line_lt (source : List Char) (pos : Nat) :
    (ofOffset source pos).line < (lines source).length := by
  have le := line_advance_le source pos ⟨0, 0⟩
  rw [Nat.zero_add] at le
  rw [length_lines]
  exact Nat.lt_succ_of_le le

end Position

namespace Diagnostic

/-- The rows of an excerpt, with each line looked up. -/
def excerpt? (source : List Char) (path : String) (span : Span) : Option (List String) := do
  let all := lines source
  let line := (Position.ofOffset source span.start).line
  let (column, width) := caretRange source span
  let text (n : Nat) : Option String := (all[n]?).map String.ofList
  let place := s!"line {line + 1}:{column + 1}" ++ if width = 1 then "" else s!"-{column + width}"
  let gutter := (toString (line + 2)).length
  let before ← if line = 0 then some []
    else (text (line - 1)).map fun text => [row gutter (toString line) "|" text]
  let here ← text line
  let after ← if line + 1 < all.length then
      (text (line + 1)).map fun text => [row gutter (toString (line + 2)) "|" text]
    else some []
  some ([s!"In file '{path}' at {place} :"] ++ before ++
    [row gutter (toString (line + 1)) ">" here,
     row gutter "" "|" ("".pushn ' ' column ++ "".pushn '^' width)] ++ after)

theorem excerpt?_eq (source : List Char) (path : String) (span : Span) :
    excerpt? source path span = some (excerpt source path span) := by
  have text {n : Nat} (h : n < (lines source).length) : (lines source)[n]?.map String.ofList =
      some (String.ofList ((lines source)[n]?.getD [])) := by
    rw [List.getElem?_eq_getElem h]
    rfl
  have here := Position.line_lt source span.start
  have above := text (Nat.lt_of_le_of_lt (Nat.sub_le _ 1) here)
  unfold excerpt? excerpt
  dsimp only
  rw [text here, above]
  by_cases first : (Position.ofOffset source span.start).line = 0
  · rw [if_pos first, if_pos first]
    by_cases last : (Position.ofOffset source span.start).line + 1 < (lines source).length
    · simp only [if_pos last, text last]
      rfl
    · simp only [if_neg last]
      rfl
  · rw [if_neg first, if_neg first]
    by_cases last : (Position.ofOffset source span.start).line + 1 < (lines source).length
    · simp only [if_pos last, text last]
      rfl
    · simp only [if_neg last]
      rfl

end Diagnostic
end ClassAsm
