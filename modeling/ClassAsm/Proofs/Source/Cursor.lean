import ClassAsm.Proofs.Source.Tiling

/-! Splitting a source with a cursor that counts bytes. Bytes are looked up and texts are cut out
where the cursor is; there is no result where that is outside the source or inside a character, nor
where a loop does not move the cursor on. There always is one, and it is that of the pieces. -/

namespace ClassAsm
namespace Cursor

/-- The bytes of a text in UTF-8. -/
def bytes (cs : List Char) : List UInt8 := cs.flatMap String.utf8EncodeChar

section Scanner

variable (source : List Char)

def peek? (pos : Nat) : Option Char := (bytes source)[pos]?.map Char.ofUInt8

/-- Whether a byte comes next; none does at the end. -/
def follows? (c : Char) (pos : Nat) : Option Bool := do
  if (bytes source).length ≤ pos then return false
  return (← peek? source pos) == c

/-- How many bytes on a byte comes first. -/
def find? (c : Char) (pos : Nat) : Option (Option Nat) :=
  if pos ≤ (bytes source).length then
    some (((bytes source).drop pos).findIdx? fun b => Char.ofUInt8 b == c)
  else none

def slice? (start stop : Nat) : Option (List Char) :=
  if start ≤ stop then Span.slice? ⟨start, stop⟩ source else none

/-- Goes on as long as bytes pass the test. -/
def skip? (test : Char → Bool) (pos : Nat) : Option Nat := do
  if (bytes source).length ≤ pos then return pos
  if test (← peek? source pos) then skip? test (pos + 1) else return pos
termination_by (bytes source).length - pos

/-- Goes over digits and over one point, if there was none before. -/
def digits? (pos : Nat) (dotted : Bool) : Option (Nat × Bool) := do
  if (bytes source).length ≤ pos then return (pos, dotted)
  let c ← peek? source pos
  if Piece.isDigit c then digits? (pos + 1) dotted
  else if c = '.' ∧ dotted = false then digits? (pos + 1) true
  else return (pos, dotted)
termination_by (bytes source).length - pos

/-- Where the first `*#` is. -/
def close? (pos : Nat) : Option (Option Nat) := do
  match ← find? source '*' pos with
  | none => return none
  | some n =>
    if peek? source (pos + n + 1) = some '#' then return some (pos + n)
    if pos + n < (bytes source).length then close? (pos + n + 1) else none
termination_by (bytes source).length - pos

/-- The body and the end of a comment that goes to the end of its line. -/
def line? (start : Nat) : Option (List Char × Nat) := do
  let stop := match ← find? source '\n' start with
    | some n => start + n
    | none => (bytes source).length
  return (← slice? source start stop, stop)

def block? (start : Nat) : Option (List Char × Nat) := do
  match ← close? source start with
  | some star => return (← slice? source start star, star + 2)
  | none =>
    let size := (bytes source).length
    return (← slice? source start size, size)

/-- The comment whose `#` has been read. -/
def comment? (start : Nat) : Option (List Char × Nat) := do
  if ← follows? source '*' start then block? source (start + 1) else line? source start

theorem le_of_skip? {test : Char → Bool} {pos stop : Nat}
    (h : skip? source test pos = some stop) : pos ≤ stop := by
  fun_induction skip? source test pos with
  | case1 pos => exact Nat.le_of_eq (Option.some.inj h)
  | case2 pos more ih =>
    obtain ⟨c, -, h⟩ := Option.bind_eq_some_iff.1 h
    split at h
    · exact Nat.le_of_succ_le (ih h)
    · exact Nat.le_of_eq (Option.some.inj h)

/-- Goes over blanks and comments. -/
def gap? (g : Gathered) : Option Gathered :=
  match _ : skip? source Piece.isBlank g.offset with
  | none => none
  | some pos => do
    if ← follows? source '#' pos then
      let (body, stop) ← comment? source (pos + 1)
      let read := (Gathered.directive? body ⟨pos, stop⟩).toList
      if pos < stop ∧ stop ≤ (bytes source).length then
        gap? { g with offset := stop, directives := read ++ g.directives }
      else none
    else return { g with offset := pos }
termination_by (bytes source).length - g.offset
decreasing_by
  have := le_of_skip? source ‹_›
  omega

theorem le_of_gap? {g g' : Gathered} (h : gap? source g = some g') : g.offset ≤ g'.offset := by
  fun_induction gap? source g with
  | case1 => cases h
  | case2 g pos blank ih =>
    have passed := le_of_skip? source blank
    obtain ⟨comes, -, h⟩ := Option.bind_eq_some_iff.1 h
    split at h
    · obtain ⟨⟨body, stop⟩, -, h⟩ := Option.bind_eq_some_iff.1 h
      dsimp only at h
      split at h
      · next further =>
        exact passed.trans (further.1.le.trans (ih body stop further h))
      · cases h
    · cases Option.some.inj h
      exact passed

def string? (start : Nat) : Option (Kind × Nat) := do
  let size := (bytes source).length
  let (stop, next) := match ← find? source '"' start with
    | some n => (start + n, start + n + 1)
    | none => (size, size)
  return (.str (String.ofList (← slice? source start stop)), next)

/-- What a number is, by its text. -/
def numberKind (dotted : Bool) (text : List Char) : Kind :=
  let value := Piece.digitsValue (text.filter Piece.isDigit)
  if dotted = false ∧ value < Piece.intBound then .int value
  else .float (Binary64.ofDecimal value ((text.dropWhile Piece.isDigit).drop 1).length)

def number? (start : Nat) : Option (Kind × Nat) := do
  let (stop, dotted) ← digits? source (start + 1) false
  return (numberKind dotted (← slice? source start stop), stop)

def word? (start : Nat) : Option (Kind × Nat) := do
  let stop ← skip? source Piece.isWordPart (start + 1)
  return (.ofWord (String.ofList (← slice? source start stop)), stop)

def oneOrTwo? (pos : Nat) (kind : Kind) (next : Char) (longer : Kind) : Option (Kind × Nat) := do
  return if ← follows? source next pos then (longer, pos + 1) else (kind, pos)

/-- The symbol that the byte in front of the cursor starts, if it starts one. -/
def symbol? (c : Char) (pos : Nat) : Option (Option (Kind × Nat)) := do
  match c with
  | '&' => return ← oneOrTwo? source pos (.symbol .and) '&' (.symbol .and)
  | '|' => return ← oneOrTwo? source pos (.symbol .or) '|' (.symbol .or)
  | '!' => return ← oneOrTwo? source pos (.symbol .bang) '=' (.symbol .bangEq)
  | '<' => return ← oneOrTwo? source pos (.symbol .lt) '=' (.symbol .ltEq)
  | '>' => return ← oneOrTwo? source pos (.symbol .gt) '=' (.symbol .gtEq)
  | '=' =>
    if ← follows? source '=' pos then return some (.symbol .eqEq, pos + 1)
    return ← oneOrTwo? source pos (.symbol .eq) '<' (.keyword .asKw)
  | c => return (Piece.single? c).map fun s => (.symbol s, pos)

/-- The kind and the end of the token at an offset, if one starts there. -/
def kind? (start : Nat) : Option (Option (Kind × Nat)) := do
  let c ← peek? source start
  if c = '"' then return ← string? source (start + 1)
  else if Piece.isDigit c then return ← number? source start
  else if Piece.isWordStart c then return ← word? source start
  else symbol? source c (start + 1)

/-- Reads on from what has been gathered. -/
def tokenize? (g : Gathered) : Option Lexed :=
  match _ : gap? source g with
  | none => none
  | some g => do
    if (bytes source).length ≤ g.offset then
      return ⟨g.directives.reverse, .ok (⟨.eof, "", .point g.offset⟩ :: g.tokens).reverse⟩
    match ← kind? source g.offset with
    | some (kind, stop) =>
      let text ← slice? source g.offset stop
      if g.offset < stop ∧ stop ≤ (bytes source).length then
        tokenize? { g with
          offset := stop
          tokens := ⟨kind, String.ofList text, ⟨g.offset, stop⟩⟩ :: g.tokens }
      else none
    | none =>
      let (_, rest) ← splitBytes g.offset source
      let c := rest.headD '\ufffd'
      let span : Span := ⟨g.offset, g.offset + c.utf8Size⟩
      return ⟨g.directives.reverse, .error ((Fault.unexpectedCharacter c).at span)⟩
termination_by (bytes source).length - g.offset
decreasing_by
  have := le_of_gap? source ‹_›
  omega

end Scanner

/-! Bytes and characters. -/

theorem length_bytes (cs : List Char) : (bytes cs).length = byteLength cs := by
  induction cs with
  | nil => rfl
  | cons c cs ih =>
    rw [bytes, List.flatMap_cons, List.length_append, ← bytes, ih, byteLength_cons,
      String.length_utf8EncodeChar]

theorem bytes_append (a b : List Char) : bytes (a ++ b) = bytes a ++ bytes b :=
  List.flatMap_append

/-- A byte starts a character: it is the only one, or neither of them is ASCII. -/
def Starts (b c : Char) : Prop := b = c ∧ c.toNat < 128 ∨ 128 ≤ b.toNat ∧ 128 ≤ c.toNat

theorem toNat_ofUInt8 (b : UInt8) : (Char.ofUInt8 b).toNat = b.toNat := rfl

theorem utf8Size_ascii {c : Char} (h : c.toNat < 128) : c.utf8Size = 1 :=
  Char.utf8Size_eq_one_iff.2 (UInt32.le_iff_toNat_le.2 (Nat.le_of_lt_succ h))

theorem encode_ascii {c : Char} (h : c.toNat < 128) :
    ∃ b, String.utf8EncodeChar c = [b] ∧ Char.ofUInt8 b = c := by
  refine ⟨_, String.utf8EncodeChar_eq_singleton (utf8Size_ascii h), ?_⟩
  refine Char.toNat_inj.1 ((toNat_ofUInt8 _).trans ?_)
  exact (UInt32.toNat_toUInt8 _).trans (Nat.mod_eq_of_lt (h.trans (by decide)))

/-- All bytes of another character are greater than the ASCII ones. -/
theorem encode_other {c : Char} (h : 128 ≤ c.toNat) {b : UInt8}
    (hb : b ∈ String.utf8EncodeChar c) : 128 ≤ b.toNat := by
  have high (x m : UInt8) (hm : 128 ≤ m.toNat) : 128 ≤ (x ||| m).toNat :=
    (UInt8.toNat_or x m).symm ▸ hm.trans Nat.right_le_or
  obtain one | two | three | four := c.utf8Size_eq
  · exact absurd (UInt32.le_iff_toNat_le.1 (Char.utf8Size_eq_one_iff.1 one)) (Nat.not_le.2 h)
  · rw [String.utf8EncodeChar_eq_cons_cons two] at hb
    simp only [List.mem_cons, List.not_mem_nil, or_false] at hb
    obtain rfl | rfl := hb <;> exact high _ _ (by decide)
  · rw [String.utf8EncodeChar_eq_cons_cons_cons three] at hb
    simp only [List.mem_cons, List.not_mem_nil, or_false] at hb
    obtain rfl | rfl | rfl := hb <;> exact high _ _ (by decide)
  · rw [String.utf8EncodeChar_eq_cons_cons_cons_cons four] at hb
    simp only [List.mem_cons, List.not_mem_nil, or_false] at hb
    obtain rfl | rfl | rfl | rfl := hb <;> exact high _ _ (by decide)

theorem eq_of_mem_encode {c q : Char} (ascii : q.toNat < 128) {b : UInt8}
    (hb : b ∈ String.utf8EncodeChar c) (he : Char.ofUInt8 b = q) : c = q := by
  by_cases low : c.toNat < 128
  · obtain ⟨b', enc, rfl⟩ := encode_ascii low
    rw [enc, List.mem_singleton] at hb
    exact hb ▸ he
  · have high := encode_other (Nat.not_lt.1 low) hb
    rw [← toNat_ofUInt8, he] at high
    exact absurd ascii (Nat.not_lt.2 high)

/-- The test is about ASCII characters only. -/
def Ascii (test : Char → Bool) : Prop := ∀ c, test c = true → c.toNat < 128

theorem Starts.test {b c : Char} (h : Starts b c) {test : Char → Bool} (ascii : Ascii test) :
    test b = test c := by
  obtain ⟨rfl, -⟩ | ⟨hb, hc⟩ := h
  · rfl
  · have other {c : Char} (h : 128 ≤ c.toNat) : test c = false :=
      Bool.eq_false_iff.2 fun holds => Nat.not_le.2 (ascii c holds) h
    rw [other hb, other hc]

theorem ascii_beq {q : Char} (h : q.toNat < 128) : Ascii (· == q) := fun _ hc =>
  eq_of_beq hc ▸ h

theorem ascii_isBlank : Ascii Piece.isBlank := by
  intro c hc
  simp only [Piece.isBlank, Bool.or_eq_true, decide_eq_true_eq] at hc
  obtain (((rfl | rfl) | rfl) | rfl) | rfl := hc <;> decide

theorem ascii_isDigit : Ascii Piece.isDigit := by
  intro c hc
  simp only [Piece.isDigit, Bool.and_eq_true, decide_eq_true_eq] at hc
  exact Nat.lt_of_le_of_lt (UInt32.le_iff_toNat_le.1 hc.2) (by decide)

theorem ascii_isWordPart : Ascii Piece.isWordPart := by
  intro c hc
  have below {d : Char} (h : c ≤ d) (hd : d.toNat < 128) : c.toNat < 128 :=
    Nat.lt_of_le_of_lt (UInt32.le_iff_toNat_le.1 h) hd
  simp only [Piece.isWordPart, Piece.isWordStart, Bool.or_eq_true, Bool.and_eq_true,
    decide_eq_true_eq] at hc
  obtain ((⟨-, h⟩ | ⟨-, h⟩) | rfl) | h := hc
  · exact below h (by decide)
  · exact below h (by decide)
  · decide
  · exact ascii_isDigit c h

theorem ascii_opens : Ascii Piece.opens := by
  intro c hc
  simp only [Piece.opens, Bool.or_eq_true, decide_eq_true_eq] at hc
  obtain ((((h | rfl) | rfl) | h) | h) | h := hc
  · exact ascii_isBlank c h
  · decide
  · decide
  · exact ascii_isDigit c h
  · exact ascii_isWordPart c (by simp [Piece.isWordPart, h])
  · have all : ("+-*/%:;(),.&|!=<>".toList.all fun d => decide (d.toNat < 128)) = true := by decide
    exact of_decide_eq_true (List.all_eq_true.1 all c (List.contains_iff_mem.1 h))

/-! What is looked up at the cursor. -/

section Spec

variable {source before rest : List Char} (hs : source = before ++ rest)
include hs

theorem drop_bytes : (bytes source).drop (byteLength before) = bytes rest := by
  rw [hs, bytes_append, ← length_bytes, List.drop_left]

theorem offset_le : byteLength before ≤ (bytes source).length := by
  rw [length_bytes, hs, byteLength_append]
  exact Nat.le_add_right _ _

theorem atEnd_iff : (bytes source).length ≤ byteLength before ↔ rest = [] := by
  rw [length_bytes, hs, byteLength_append]
  constructor
  · intro h
    by_contra some
    have := byteLength_pos some
    omega
  · rintro rfl
    exact Nat.le_refl _

/-- The byte at the cursor starts the character that comes next. -/
theorem peek?_eq {c : Char} {cs : List Char} (hr : rest = c :: cs) :
    ∃ b, peek? source (byteLength before) = some b ∧ Starts b c := by
  rw [peek?, ← List.head?_drop, drop_bytes hs, hr]
  by_cases ascii : c.toNat < 128
  · obtain ⟨b, he, rfl⟩ := encode_ascii ascii
    refine ⟨_, ?_, .inl ⟨rfl, ascii⟩⟩
    rw [bytes, List.flatMap_cons, he]
    rfl
  · obtain ⟨b, bs, he⟩ : ∃ b bs, String.utf8EncodeChar c = b :: bs := by
      refine List.exists_cons_of_ne_nil fun none => ?_
      have := String.length_utf8EncodeChar c ▸ c.utf8Size_pos
      simp [none] at this
    have high := encode_other (Nat.not_lt.1 ascii) (he ▸ List.mem_cons_self : b ∈ _)
    refine ⟨Char.ofUInt8 b, ?_, .inr ⟨high, Nat.not_lt.1 ascii⟩⟩
    rw [bytes, List.flatMap_cons, he]
    rfl

theorem peek?_ascii {c : Char} {cs : List Char} (hr : rest = c :: cs) (ascii : c.toNat < 128) :
    peek? source (byteLength before) = some c := by
  obtain ⟨b, found, ⟨rfl, -⟩ | ⟨-, high⟩⟩ := peek?_eq hs hr
  · exact found
  · exact absurd ascii (Nat.not_lt.2 high)

theorem peek?_eq_some_iff {q : Char} (ascii : q.toNat < 128) :
    peek? source (byteLength before) = some q ↔ rest.head? = some q := by
  cases rest with
  | nil =>
    rw [peek?, ← List.head?_drop, drop_bytes hs]
    simp [bytes]
  | cons c cs =>
    obtain ⟨b, found, starts⟩ := peek?_eq hs rfl
    have := starts.test (ascii_beq ascii)
    simpa [found] using this

theorem follows?_eq {q : Char} (ascii : q.toNat < 128) :
    follows? source q (byteLength before) = some (rest.head? == some q) := by
  unfold follows?
  cases rest with
  | nil => simp [(atEnd_iff hs).2 rfl]
  | cons c cs =>
    obtain ⟨b, found, starts⟩ := peek?_eq hs rfl
    have := starts.test (ascii_beq ascii)
    have more := mt (atEnd_iff hs).1 (List.cons_ne_nil c cs)
    simp [more, found, this]

/-- The first byte of an ASCII character is where the character is. -/
theorem find?_eq {q : Char} (ascii : q.toNat < 128) :
    find? source q (byteLength before) = some (match rest.dropWhile (· ≠ q) with
      | [] => none
      | _ :: _ => some (byteLength (rest.takeWhile (· ≠ q)))) := by
  rw [find?, if_pos (offset_le hs), drop_bytes hs, Option.some_inj]
  clear hs
  induction rest with
  | nil => rfl
  | cons c cs ih =>
    rw [bytes, List.flatMap_cons, ← bytes, List.findIdx?_append, ih]
    by_cases here : c = q
    · subst here
      obtain ⟨b, he, hb⟩ := encode_ascii ascii
      simp [he, hb, List.findIdx?_cons]
      rfl
    · have other : (String.utf8EncodeChar c).findIdx? (fun b => Char.ofUInt8 b == q) = none := by
        exact List.findIdx?_eq_none_iff.2 fun b hb =>
          beq_false_of_ne fun he => here (eq_of_mem_encode ascii hb he)
      rw [other, Option.none_or, String.length_utf8EncodeChar,
        List.dropWhile_cons_of_pos (by simpa using here),
        List.takeWhile_cons_of_pos (by simpa using here)]
      cases cs.dropWhile (· ≠ q) with
      | nil => rfl
      | cons => simp [byteLength_cons, Nat.add_comm]

/-- A text that comes next moves the cursor on, and ends in the source. -/
theorem moves_on {text after : List Char} (hr : rest = text ++ after) (some : text ≠ []) :
    byteLength before < byteLength before + byteLength text ∧
      byteLength before + byteLength text ≤ (bytes source).length := by
  refine ⟨Nat.lt_add_of_pos_right (byteLength_pos some), ?_⟩
  rw [← byteLength_append]
  exact offset_le (show source = (before ++ text) ++ after by rw [hs, hr, List.append_assoc])

theorem slice?_eq {text after : List Char} (hr : rest = text ++ after) :
    slice? source (byteLength before) (byteLength (before ++ text)) = some text := by
  rw [slice?, byteLength_append, if_pos (Nat.le_add_right _ _), hs, hr]
  exact Span.slice?_append before text after

end Spec

theorem byteLength_ascii {before : List Char} {c : Char} (h : c.toNat < 128) :
    byteLength (before ++ [c]) = byteLength before + 1 := by
  rw [byteLength_append, byteLength_cons, utf8Size_ascii h]
  rfl

section Loops

variable {source before rest : List Char}

theorem skip?_eq {test : Char → Bool} (ascii : Ascii test) (hs : source = before ++ rest) :
    skip? source test (byteLength before) =
      some (byteLength before + byteLength (rest.takeWhile test)) := by
  induction rest generalizing before with
  | nil =>
    rw [skip?]
    simp [(atEnd_iff hs).2 rfl]
    rfl
  | cons c cs ih =>
    obtain ⟨b, found, starts⟩ := peek?_eq hs rfl
    have more := mt (atEnd_iff hs).1 (List.cons_ne_nil c cs)
    rw [skip?]
    simp only [more, found, starts.test ascii, if_false, Option.bind_eq_bind, Option.bind_some]
    by_cases passes : test c = true
    · have step := ih (show source = (before ++ [c]) ++ cs by simpa using hs)
      rw [byteLength_ascii (ascii c passes)] at step
      rw [if_pos passes, step, List.takeWhile_cons_of_pos passes, byteLength_cons,
        utf8Size_ascii (ascii c passes), Nat.add_assoc]
    · rw [if_neg passes, List.takeWhile_cons_of_neg passes]
      rfl

theorem digits?_pass (hs : source = before ++ rest) (dotted : Bool) :
    digits? source (byteLength before) dotted =
      digits? source (byteLength (before ++ rest.takeWhile Piece.isDigit)) dotted := by
  induction rest generalizing before with
  | nil => simp
  | cons c cs ih =>
    by_cases digit : Piece.isDigit c = true
    · have ascii := ascii_isDigit c digit
      have more := mt (atEnd_iff hs).1 (List.cons_ne_nil c cs)
      have step := ih (show source = (before ++ [c]) ++ cs by simpa using hs)
      rw [byteLength_ascii ascii, List.append_assoc] at step
      rw [digits?, List.takeWhile_cons_of_pos digit]
      simp only [more, peek?_ascii hs rfl ascii, digit, if_false, if_true, Option.bind_eq_bind,
        Option.bind_some]
      exact step
    · rw [List.takeWhile_cons_of_neg digit, List.append_nil]

theorem digits?_point {cs : List Char} (hs : source = before ++ '.' :: cs) :
    digits? source (byteLength before) false = digits? source (byteLength before + 1) true := by
  have more := mt (atEnd_iff hs).1 (List.cons_ne_nil '.' cs)
  rw [digits?]
  simp [more, peek?_ascii hs rfl (show '.'.toNat < 128 by decide), Piece.isDigit]

theorem digits?_stop (hs : source = before ++ rest) {dotted : Bool}
    (other : ∀ c ∈ rest.head?, Piece.isDigit c = false ∧ (c = '.' → dotted = true)) :
    digits? source (byteLength before) dotted = some (byteLength before, dotted) := by
  rw [digits?]
  cases rest with
  | nil => simp [(atEnd_iff hs).2 rfl]
  | cons c cs =>
    obtain ⟨b, found, starts⟩ := peek?_eq hs rfl
    have more := mt (atEnd_iff hs).1 (List.cons_ne_nil c cs)
    obtain ⟨digit, point⟩ := other c rfl
    have noPoint : ¬ (b = '.' ∧ dotted = false) := by
      have := starts.test (ascii_beq (q := '.') (by decide))
      rintro ⟨rfl, he⟩
      simp_all
    simp [more, found, starts.test ascii_isDigit, digit, noPoint]

theorem digits?_eq (hs : source = before ++ rest) :
    digits? source (byteLength before) false = some (match rest.dropWhile Piece.isDigit with
      | '.' :: tail => (byteLength
          (before ++ (rest.takeWhile Piece.isDigit ++ '.' :: tail.takeWhile Piece.isDigit)), true)
      | _ => (byteLength (before ++ rest.takeWhile Piece.isDigit), false)) := by
  have whole := List.takeWhile_append_dropWhile (p := Piece.isDigit) (l := rest)
  have next := List.head?_dropWhile_not Piece.isDigit rest
  rw [digits?_pass hs]
  replace hs : source = (before ++ rest.takeWhile Piece.isDigit) ++ rest.dropWhile Piece.isDigit := by
    rw [hs, List.append_assoc, whole]
  split
  · next tail hd =>
    rw [hd] at hs
    have behind : source = (before ++ rest.takeWhile Piece.isDigit ++ ['.']) ++ tail := by
      simpa using hs
    have last := List.takeWhile_append_dropWhile (p := Piece.isDigit) (l := tail)
    have ends : source = (before ++ rest.takeWhile Piece.isDigit ++ ['.'] ++
        tail.takeWhile Piece.isDigit) ++ tail.dropWhile Piece.isDigit := by
      rw [List.append_assoc, last, behind]
    rw [digits?_point hs, ← byteLength_ascii (c := '.') (by decide), digits?_pass behind,
      digits?_stop ends]
    · simp
    · have := List.head?_dropWhile_not Piece.isDigit tail
      intro c hc
      rw [Option.mem_def] at hc
      exact ⟨by simpa [hc] using this, fun _ => rfl⟩
  · next plain =>
    refine digits?_stop hs fun c hc => ?_
    rw [Option.mem_def] at hc
    refine ⟨by simpa [hc] using next, fun he => ?_⟩
    obtain ⟨tail, ht⟩ := List.head?_eq_some_iff.1 (he ▸ hc)
    exact absurd ht (plain tail)

theorem close?_step {c : Char} {cs : List Char} (hs : source = before ++ c :: cs)
    (inside : c = '*' → cs.head? ≠ some '#') :
    close? source (byteLength before) = close? source (byteLength (before ++ [c])) := by
  have later : source = (before ++ [c]) ++ cs := by simpa using hs
  have star : '*'.toNat < 128 := by decide
  by_cases here : c = '*'
  · subst here
    have other := mt (peek?_eq_some_iff later (q := '#') (by decide)).1 (inside rfl)
    rw [byteLength_ascii star] at other ⊢
    have more := mt (atEnd_iff hs).1 (List.cons_ne_nil '*' cs)
    rw [close?, find?_eq hs star]
    simp [byteLength_nil, other, more]
  · rw [close?, close?, find?_eq hs star, find?_eq later star,
      List.dropWhile_cons_of_pos (by simpa using here),
      List.takeWhile_cons_of_pos (by simpa using here)]
    cases cs.dropWhile (· ≠ '*') with
    | nil => rfl
    | cons => simp [byteLength_append, byteLength_cons, byteLength_nil, Nat.add_assoc]

theorem close?_eq (seen : List Char) (hs : source = before ++ (seen.reverse ++ rest)) :
    close? source (byteLength (before ++ seen.reverse)) =
      some (match Piece.splitClose seen rest with
        | (body, some _) => some (byteLength (before ++ body))
        | (_, none) => none) := by
  have star : '*'.toNat < 128 := by decide
  replace hs : source = (before ++ seen.reverse) ++ rest := by simpa using hs
  fun_induction Piece.splitClose seen rest with
  | case1 seen rest =>
    have next : source = (before ++ seen.reverse ++ ['*']) ++ '#' :: rest := by simpa using hs
    have hash := peek?_ascii next rfl (by decide)
    rw [byteLength_ascii star] at hash
    rw [close?, find?_eq hs star]
    simp [byteLength_nil, hash]
  | case2 seen c rest inside ih =>
    rw [close?_step hs fun he hr => ?_]
    · simpa using ih (by simpa using hs)
    · obtain ⟨after, rfl⟩ := List.head?_eq_some_iff.1 hr
      exact inside after he rfl
  | case3 seen =>
    rw [close?, find?_eq hs star]
    rfl

end Loops

/-! Pieces. -/

section Pieces

open Piece

variable {source before rest : List Char}

theorem line?_eq (hs : source = before ++ rest) :
    line? source (byteLength before) =
      some (rest.takeWhile (· ≠ '\n'), byteLength (before ++ rest.takeWhile (· ≠ '\n'))) := by
  have whole := List.takeWhile_append_dropWhile (p := (· ≠ '\n')) (l := rest)
  have body := slice?_eq hs whole.symm
  unfold line?
  rw [find?_eq hs (by decide), length_bytes]
  cases hd : rest.dropWhile (· ≠ '\n') with
  | nil =>
    rw [hd, List.append_nil] at whole
    rw [whole] at body ⊢
    simp only [Option.bind_eq_bind, Option.bind_some, hs] at body ⊢
    rw [body]
    rfl
  | cons =>
    simp only [Option.bind_eq_bind, Option.bind_some, ← byteLength_append]
    rw [body]
    rfl

theorem block?_eq (hs : source = before ++ rest) :
    block? source (byteLength before) = some (match splitClose [] rest with
      | (body, some _) => (body, byteLength (before ++ body) + 2)
      | (body, none) => (body, byteLength (before ++ body))) := by
  have close := close?_eq [] hs
  have whole := splitClose_append [] rest
  rw [List.reverse_nil, List.append_nil] at close
  unfold block?
  rw [close, length_bytes, Option.bind_eq_bind, Option.bind_some]
  split at whole
  · next cut =>
    simp only [cut, List.reverse_nil, List.nil_append] at whole ⊢
    rw [slice?_eq hs whole.symm]
    rfl
  · next cut =>
    simp only [cut, List.reverse_nil, List.nil_append] at whole ⊢
    rw [hs, ← whole, slice?_eq rfl (List.append_nil _).symm]
    rfl

/-- A comment ends where the piece does, and its body is cut out. -/
theorem comment?_eq (hs : source = before ++ rest) {more body tail : List Char}
    (h : afterHash rest = (comment ('#' :: more) body, tail)) :
    comment? source (byteLength before) = some (body, byteLength (before ++ more)) := by
  have star : '*'.toNat < 128 := by decide
  unfold comment?
  rw [follows?_eq hs star, Option.bind_eq_bind, Option.bind_some]
  unfold afterHash at h
  split at h
  · next rest =>
    have opened : source = (before ++ ['*']) ++ rest := by simpa using hs
    rw [List.head?_cons, BEq.rfl, if_pos rfl, ← byteLength_ascii star, block?_eq opened]
    split at h
    · next cut =>
      cases h
      have closed := byteLength_append (before ++ '*' :: body) ['*', '#']
      simp_all [byteLength_cons, byteLength_nil, utf8Size_ascii]
    · next cut =>
      cases h
      simp [cut]
  · next line =>
    cases h
    rw [if_neg, line?_eq hs]
    intro he
    obtain ⟨more, rfl⟩ := List.head?_eq_some_iff.1 (eq_of_beq he)
    exact line more rfl

theorem string?_eq (hs : source = before ++ rest) {kind : Kind} {more tail : List Char}
    (h : afterQuote rest = (token kind ('"' :: more), tail)) :
    string? source (byteLength before) = some (kind, byteLength (before ++ more)) := by
  have whole := List.takeWhile_append_dropWhile (p := (· ≠ '"')) (l := rest)
  have body := slice?_eq hs whole.symm
  unfold afterQuote at h
  unfold string?
  rw [find?_eq hs (by decide), length_bytes]
  cases hd : rest.dropWhile (· ≠ '"') with
  | nil =>
    rw [hd, List.append_nil] at whole
    simp only [hd, whole] at h body ⊢
    cases h
    simp only [Option.bind_eq_bind, Option.bind_some, hs] at body ⊢
    rw [body]
    rfl
  | cons close after =>
    have quote := List.head?_dropWhile_not (· ≠ '"') rest
    rw [hd] at quote
    replace quote : close = '"' := by simpa using quote
    simp only [hd] at h ⊢
    cases h
    simp only [Option.bind_eq_bind, Option.bind_some, ← byteLength_append]
    have closed : byteLength (before ++ rest.takeWhile (· ≠ '"') ++ [close]) = _ :=
      byteLength_ascii (quote ▸ by decide : close.toNat < 128)
    rw [body, ← closed, List.append_assoc]
    rfl

theorem word?_eq {c : Char} (hs : source = before ++ c :: rest) (starts : isWordStart c = true)
    {kind : Kind} {more tail : List Char} (h : afterLetter c rest = (token kind more, tail)) :
    word? source (byteLength before) = some (kind, byteLength (before ++ more)) := by
  have ascii := ascii_isWordPart c (by simp [isWordPart, starts])
  have whole : c :: rest = (c :: rest.takeWhile isWordPart) ++ rest.dropWhile isWordPart := by simp
  have stop := skip?_eq ascii_isWordPart (show source = (before ++ [c]) ++ rest by simpa using hs)
  rw [← byteLength_append, List.append_assoc, byteLength_ascii ascii, List.singleton_append] at stop
  cases h
  unfold word?
  rw [stop, Option.bind_eq_bind, Option.bind_some, slice?_eq hs whole]
  rfl

theorem numberKind_digits {ds : List Char} (digits : ∀ d ∈ ds, isDigit d = true) :
    numberKind false ds = if digitsValue ds < intBound then .int (digitsValue ds)
      else .float (Binary64.ofDecimal (digitsValue ds) 0) := by
  simp [numberKind, List.filter_eq_self.2 digits, List.dropWhile_eq_nil_iff.2 digits]

theorem numberKind_point {ds ps : List Char} (digits : ∀ d ∈ ds, isDigit d = true)
    (places : ∀ d ∈ ps, isDigit d = true) : numberKind true (ds ++ '.' :: ps) =
      .float (Binary64.ofDecimal (digitsValue (ds ++ ps)) ps.length) := by
  have point : isDigit '.' = false := by decide
  simp [numberKind, List.filter_append, List.filter_eq_self.2 digits, List.filter_eq_self.2 places,
    List.dropWhile_append_of_pos digits, point]

theorem number?_eq {d : Char} (hs : source = before ++ d :: rest) (digit : isDigit d = true)
    {kind : Kind} {text tail : List Char} (h : afterDigit d rest = (token kind text, tail)) :
    number? source (byteLength before) = some (kind, byteLength (before ++ text)) := by
  have stop := digits?_eq (show source = (before ++ [d]) ++ rest by simpa using hs)
  have whole := List.takeWhile_append_dropWhile (p := isDigit) (l := rest)
  have digits : ∀ e ∈ d :: rest.takeWhile isDigit, isDigit e = true :=
    List.forall_mem_cons.2 ⟨digit, fun _ => List.mem_takeWhile_imp⟩
  rw [byteLength_ascii (ascii_isDigit d digit)] at stop
  unfold afterDigit at h
  unfold number?
  split at stop
  · next tail' hd =>
    have last := List.takeWhile_append_dropWhile (p := isDigit) (l := tail')
    have places : ∀ e ∈ tail'.takeWhile isDigit, isDigit e = true :=
      fun _ => List.mem_takeWhile_imp
    rw [hd, ← last] at whole
    simp only [hd] at h
    cases h
    have text := slice?_eq hs (show d :: rest = (d :: rest.takeWhile isDigit ++
      '.' :: tail'.takeWhile isDigit) ++ tail'.dropWhile isDigit by simpa using whole.symm)
    rw [List.append_assoc, List.singleton_append, ← List.cons_append] at stop
    simp only [stop, text, Option.bind_eq_bind, Option.bind_some, numberKind_point digits places]
    rfl
  · next plain =>
    split at h
    · next hd => exact absurd hd (plain _)
    cases h
    have text := slice?_eq hs (show d :: rest = (d :: rest.takeWhile isDigit) ++
      rest.dropWhile isDigit by simp)
    rw [List.append_assoc, List.singleton_append] at stop
    simp only [stop, text, Option.bind_eq_bind, Option.bind_some, numberKind_digits digits]
    rfl

theorem oneOrTwo?_eq (hs : source = before ++ rest) {c next : Char} (ascii : next.toNat < 128)
    {kind longer k : Kind} {more tail : List Char}
    (h : oneOrTwo c kind next longer rest = (token k (c :: more), tail)) :
    oneOrTwo? source (byteLength before) kind next longer =
      some (k, byteLength (before ++ more)) := by
  unfold oneOrTwo?
  rw [follows?_eq hs ascii]
  unfold oneOrTwo at h
  split at h
  · split at h
    · next here =>
      cases h
      simp [here, byteLength_ascii ascii]
    · cases h
      simp [*]
  · cases h
    simp

theorem symbol?_eq (hs : source = before ++ rest) {c : Char} {k : Kind} {more tail : List Char}
    (h : Piece.symbol? c rest = some (token k (c :: more), tail)) :
    symbol? source c (byteLength before) = some (some (k, byteLength (before ++ more))) := by
  unfold Piece.symbol? at h
  split at h
  case h_6 =>
    have equals := follows?_eq hs (q := '=') (by decide)
    split at h
    · next tail' =>
      cases h
      have less : oneOrTwo? source (byteLength before) (.symbol .eq) '<' (.keyword .asKw) = _ :=
        oneOrTwo?_eq (c := '=') hs (by decide) rfl
      simp [symbol?, equals, less]
    · next other =>
      have less := follows?_eq hs (q := '<') (by decide)
      have noLess : rest.head? ≠ some '<' := fun he =>
        (List.head?_eq_some_iff.1 he).elim other
      unfold oneOrTwo at h
      split at h
      · next d tail' =>
        split at h
        · next double =>
          cases h
          simp [symbol?, equals, double, byteLength_ascii]
        · next single =>
          cases h
          simp_all [symbol?, oneOrTwo?]
      · cases h
        simp [symbol?, oneOrTwo?, equals, less]
  case h_7 =>
    obtain ⟨s, single, he⟩ := Option.map_eq_some_iff.1 h
    cases he
    unfold symbol?
    split
    case h_7 => simp [single]
    all_goals cases single
  all_goals
    rw [symbol?, oneOrTwo?_eq hs (by decide) (Option.some.inj h)]
    rfl

theorem token_start {c : Char} {kind : Kind} {text tail : List Char}
    (h : next? c rest = some (token kind text, tail)) : isBlank c = false ∧ c ≠ '#' := by
  refine ⟨Bool.eq_false_iff.2 fun blank => ?_, ?_⟩
  · rw [next?, if_pos blank] at h
    cases h
  · rintro rfl
    obtain ⟨text, body, he, -⟩ := isComment_afterHash rest
    rw [show afterHash rest = _ from Option.some.inj h] at he
    cases he

theorem kind?_eq {c : Char} (hs : source = before ++ c :: rest) {k : Kind} {more tail : List Char}
    (h : next? c rest = some (token k (c :: more), tail)) :
    kind? source (byteLength before) = some (some (k, byteLength (before ++ c :: more))) := by
  have ascii : c.toNat < 128 := by
    refine ascii_opens c (Bool.not_eq_false _ ▸ fun none => ?_)
    rw [next?_eq_none_iff.2 none] at h
    cases h
  have behind : source = (before ++ [c]) ++ rest := by simpa using hs
  have append : before ++ c :: more = before ++ [c] ++ more := by simp
  obtain ⟨noBlank, noHash⟩ := token_start h
  rw [next?, if_neg (Bool.not_eq_true _ ▸ noBlank), if_neg noHash] at h
  unfold kind?
  rw [peek?_ascii hs rfl ascii, ← byteLength_ascii ascii, Option.bind_eq_bind, Option.bind_some]
  split at h
  · next quote =>
    subst quote
    rw [if_pos rfl, string?_eq behind (Option.some.inj h), append]
    rfl
  next noQuote =>
  rw [if_neg noQuote]
  split at h
  · next digit =>
    rw [if_pos digit, number?_eq hs digit (Option.some.inj h)]
    rfl
  next noDigit =>
  rw [if_neg noDigit]
  split at h
  · next starts =>
    rw [if_pos starts, word?_eq hs starts (Option.some.inj h)]
    rfl
  next noWord =>
  rw [if_neg noWord, symbol?_eq behind h, append]

theorem kind?_none {c : Char} (hs : source = before ++ c :: rest) (h : opens c = false) :
    kind? source (byteLength before) = some none := by
  obtain ⟨b, found, starts⟩ := peek?_eq hs rfl
  rw [← starts.test ascii_opens] at h
  simp only [opens, Bool.or_eq_false_iff, decide_eq_false_iff_not] at h
  obtain ⟨⟨⟨⟨-, quote⟩, digit⟩, word⟩, sign⟩ := h
  unfold kind?
  simp only [found, Option.bind_eq_bind, Option.bind_some, quote, digit, word]
  unfold symbol?
  split <;> simp_all [single?]

theorem gap?_blank {c : Char} {g : Gathered} (hs : source = before ++ c :: rest)
    (hg : g.offset = byteLength before) (blank : isBlank c = true) :
    gap? source g = gap? source (g.add (.blank c)) := by
  have ascii := ascii_isBlank c blank
  have here := skip?_eq ascii_isBlank hs
  have next := skip?_eq ascii_isBlank (show source = (before ++ [c]) ++ rest by simpa using hs)
  rw [List.takeWhile_cons_of_pos blank, byteLength_cons, utf8Size_ascii ascii, ← Nat.add_assoc,
    ← byteLength_ascii ascii, ← next, byteLength_append, ← hg] at here
  rw [gap?, gap?, here]
  rfl

theorem gap?_comment {g : Gathered} (hs : source = before ++ '#' :: rest)
    (hg : g.offset = byteLength before) {more body tail : List Char}
    (h : afterHash rest = (comment ('#' :: more) body, tail)) :
    gap? source g = gap? source (g.add (comment ('#' :: more) body)) := by
  have here := skip?_eq ascii_isBlank hs
  rw [List.takeWhile_cons_of_neg (by decide), byteLength_nil, Nat.add_zero, ← hg] at here
  have opens := follows?_eq hs (q := '#') (by decide)
  have read := comment?_eq (show source = (before ++ ['#']) ++ rest by simpa using hs) h
  rw [byteLength_ascii (by decide), ← hg] at read
  rw [← hg] at opens
  have ends : byteLength (before ++ ['#'] ++ more) = g.offset + byteLength ('#' :: more) := by
    rw [hg, ← byteLength_append, List.append_assoc]
    rfl
  obtain ⟨_, ht, hr⟩ := next?_takes (show next? '#' rest = _ from congrArg some h)
  obtain rfl := (List.cons.inj ht).2
  have cut : '#' :: rest = ('#' :: more) ++ tail := congrArg (List.cons '#') hr.symm
  have on := moves_on hs cut (List.cons_ne_nil '#' more)
  rw [← hg] at on
  rw [gap?, here]
  simp only [Option.bind_eq_bind, Option.bind_some, opens, List.head?_cons, BEq.rfl, if_true, read,
    ends, if_pos on]
  rfl

theorem gap?_stop {g : Gathered} (hs : source = before ++ rest)
    (hg : g.offset = byteLength before)
    (other : ∀ c ∈ rest.head?, isBlank c = false ∧ c ≠ '#') : gap? source g = some g := by
  have none : rest.takeWhile isBlank = [] := by
    cases rest with
    | nil => rfl
    | cons c cs => exact List.takeWhile_cons_of_neg (Bool.not_eq_true _ ▸ (other c rfl).1)
  have here := skip?_eq ascii_isBlank hs
  rw [none, byteLength_nil, Nat.add_zero, ← hg] at here
  have opens := follows?_eq hs (q := '#') (by decide)
  have noHash : (rest.head? == some '#') = false :=
    beq_false_of_ne fun he => (other _ he).2 rfl
  rw [← hg, noHash] at opens
  rw [gap?, here]
  simp [opens]

theorem tokenize?_congr {g g' : Gathered} (h : gap? source g = gap? source g') :
    tokenize? source g = tokenize? source g' := by
  rw [tokenize?, tokenize?, h]

theorem tokenize?_token {c : Char} {k : Kind} {more tail : List Char} {g : Gathered}
    (hs : source = before ++ c :: rest) (hg : g.offset = byteLength before)
    (h : next? c rest = some (token k (c :: more), tail)) :
    tokenize? source g = tokenize? source (g.add (token k (c :: more))) := by
  have stays := gap?_stop hs hg fun d hd => Option.some.inj hd ▸ token_start h
  have further : ¬ (bytes source).length ≤ g.offset :=
    hg ▸ mt (atEnd_iff hs).1 (List.cons_ne_nil c rest)
  have found := kind?_eq hs h
  obtain ⟨more', ht, hr⟩ := next?_takes h
  obtain rfl : more = more' := (List.cons.inj ht).2
  have cut : c :: rest = (c :: more) ++ tail := congrArg (List.cons c) hr.symm
  have text := slice?_eq hs cut
  have on := moves_on hs cut (List.cons_ne_nil c more)
  rw [byteLength_append, ← hg] at found text
  rw [← hg] at on
  rw [tokenize?, stays]
  simp only [Option.bind_eq_bind, Option.bind_some, further, if_false, found, text, if_pos on]
  rfl

/-- The cursor goes over one piece after the other. -/
theorem tokenize?_add {c : Char} {tail : List Char} {p : Piece} {g : Gathered}
    (hs : source = before ++ c :: rest) (hg : g.offset = byteLength before)
    (h : next? c rest = some (p, tail)) :
    tokenize? source g = tokenize? source (g.add p) := by
  have fits := fits_of_next? h
  obtain ⟨more, ht, -⟩ := next?_takes h
  cases p with
  | blank b =>
    obtain ⟨rfl, rfl⟩ := List.cons.inj ht
    exact tokenize?_congr (gap?_blank hs hg fits)
  | comment text body =>
    obtain rfl : text = c :: more := ht
    obtain rfl : c = '#' := by
      cases fits <;> rfl
    exact tokenize?_congr (gap?_comment hs hg (Option.some.inj h))
  | token k text =>
    obtain rfl : text = c :: more := ht
    exact tokenize?_token hs hg h

theorem tokenize?_foldl {cs left : List Char} {ps : List Piece} {g : Gathered}
    (laid : Laid cs ps left) (hs : source = before ++ cs) (hg : g.offset = byteLength before) :
    tokenize? source g = tokenize? source (ps.foldl Gathered.add g) := by
  induction laid generalizing before g with
  | done | stuck => rfl
  | @next c rest tail left p ps h _ ih =>
    obtain ⟨more, ht, rfl⟩ := next?_takes h
    rw [tokenize?_add hs hg h]
    refine ih (show source = (before ++ p.text) ++ tail by simp [hs, ht]) ?_
    rw [byteLength_append, ← hg]
    cases p <;> rfl

end Pieces

/-- The cursor always has a result, and it is that of the pieces. -/
theorem tokenize?_eq (source : List Char) : tokenize? source {} = some (Lexed.ofSource source) := by
  obtain ⟨ps, hp, laid⟩ := Piece.scan_laid [] source
  obtain rfl : _ = ps := hp
  have whole := laid.eq_append
  have gathered := Piece.foldl_gathered {} (Piece.scan [] source).1
  have run : tokenize? source {} = _ := tokenize?_foldl laid (List.nil_append source).symm rfl
  unfold Lexed.ofSource
  dsimp only
  rw [run]
  generalize (Piece.scan [] source).1.foldl Gathered.add {} = g at gathered
  have hg : g.offset = byteLength ((Piece.scan [] source).1.flatMap Piece.text) := by
    rw [gathered, Nat.zero_add]
  obtain ends | ⟨c, after, ends, opens⟩ := laid.eq_nil_or_opens
  · rw [ends] at whole ⊢
    rw [tokenize?, gap?_stop whole hg nofun]
    simp [hg, (atEnd_iff whole).2 rfl]
  · rw [ends] at whole ⊢
    have further : ¬ (bytes source).length ≤ g.offset :=
      hg ▸ mt (atEnd_iff whole).1 (List.cons_ne_nil c after)
    have none := kind?_none whole opens
    have rest := splitBytes_append ((Piece.scan [] source).1.flatMap Piece.text) (c :: after)
    rw [← whole, ← hg] at rest
    rw [← hg] at none
    rw [tokenize?, gap?_stop whole hg]
    · simp only [Option.bind_eq_bind, Option.bind_some, further, if_false, none, rest]
      rfl
    · intro d hd
      obtain rfl := Option.some.inj hd
      simp only [Piece.opens, Bool.or_eq_false_iff, decide_eq_false_iff_not] at opens
      exact ⟨opens.1.1.1.1.1, opens.1.1.1.1.2⟩

end Cursor
end ClassAsm
