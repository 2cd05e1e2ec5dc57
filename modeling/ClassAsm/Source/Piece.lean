import ClassAsm.Token

/-! A source text is a sequence of pieces: blanks, comments and tokens. One step splits the next
piece off the front of the text, so nothing of the text is lost; a character that starts no piece
ends the sequence. -/

namespace ClassAsm

inductive Piece where
  | blank (c : Char)
  /-- A comment: its whole text and what stands in it. -/
  | comment (text body : List Char)
  | token (kind : Kind) (text : List Char)
deriving DecidableEq, Repr

namespace Piece

def text : Piece → List Char
  | blank c => [c]
  | comment text _ => text
  | token _ text => text

/-- Blanks between tokens: space, tab, newline, form feed and carriage return. -/
def isBlank (c : Char) : Bool :=
  c = ' ' || c = '\t' || c = '\n' || c = '\x0c' || c = '\r'

def isDigit (c : Char) : Bool := '0' ≤ c && c ≤ '9'

def isWordStart (c : Char) : Bool :=
  ('a' ≤ c && c ≤ 'z') || ('A' ≤ c && c ≤ 'Z') || c = '_'

def isWordPart (c : Char) : Bool := isWordStart c || isDigit c

/-- The number that decimal digits write. -/
def digitsValue (ds : List Char) : Nat := ds.foldl (fun n d => 10 * n + (d.toNat - '0'.toNat)) 0

/-- Integers are below this bound; longer digits make a float. -/
def intBound : Nat := pow2 63

/-- Splits at the first `*#`; without one the whole text is inside. `seen` is what stands before,
latest first. -/
def splitClose (seen : List Char) : List Char → List Char × Option (List Char)
  | '*' :: '#' :: rest => (seen.reverse, some rest)
  | c :: rest => splitClose (c :: seen) rest
  | [] => (seen.reverse, none)

/-- The comment whose `#` has been read. A comment that opens with `*` ends at `*#` or with the
text, any other before the end of its line. -/
def afterHash : List Char → Piece × List Char
  | '*' :: rest =>
    match splitClose [] rest with
    | (body, some tail) => (comment ('#' :: '*' :: body ++ ['*', '#']) body, tail)
    | (body, none) => (comment ('#' :: '*' :: body) body, [])
  | rest =>
    let body := rest.takeWhile (· ≠ '\n')
    (comment ('#' :: body) body, rest.dropWhile (· ≠ '\n'))

/-- The string whose opening quote has been read. There are no escapes, and a string that is not
closed takes the rest of the text. -/
def afterQuote (rest : List Char) : Piece × List Char :=
  let body := rest.takeWhile (· ≠ '"')
  let kind := Kind.str (String.ofList body)
  match rest.dropWhile (· ≠ '"') with
  | close :: tail => (token kind ('"' :: body ++ [close]), tail)
  | [] => (token kind ('"' :: body), [])

/-- The number whose first digit is `d`: digits with at most one point, which may come last. -/
def afterDigit (d : Char) (rest : List Char) : Piece × List Char :=
  let whole := rest.takeWhile isDigit
  match rest.dropWhile isDigit with
  | '.' :: tail =>
    let places := tail.takeWhile isDigit
    let value := Binary64.ofDecimal (digitsValue (d :: whole ++ places)) places.length
    (token (.float value) (d :: whole ++ '.' :: places), tail.dropWhile isDigit)
  | tail =>
    let value := digitsValue (d :: whole)
    let kind := if value < intBound then .int value else .float (Binary64.ofDecimal value 0)
    (token kind (d :: whole), tail)

def afterLetter (c : Char) (rest : List Char) : Piece × List Char :=
  let word := c :: rest.takeWhile isWordPart
  (token (Kind.ofWord (String.ofList word)) word, rest.dropWhile isWordPart)

/-- The symbol `c`, or the longer one if `next` follows. -/
def oneOrTwo (c : Char) (kind : Kind) (next : Char) (longer : Kind) (rest : List Char) :
    Piece × List Char :=
  match rest with
  | d :: tail => if d = next then (token longer [c, d], tail) else (token kind [c], rest)
  | [] => (token kind [c], rest)

/-- Symbols of one character that start no longer one. -/
def single? : Char → Option Symbol
  | '+' => some .plus | '-' => some .minus | '*' => some .star | '/' => some .slash
  | '%' => some .percent | ':' => some .colon | ';' => some .semicolon | '(' => some .lparen
  | ')' => some .rparen | ',' => some .comma | '.' => some .dot
  | _ => none

/-- The symbol that starts with `c`. -/
def symbol? (c : Char) (rest : List Char) : Option (Piece × List Char) :=
  match c with
  | '&' => some (oneOrTwo c (.symbol .and) '&' (.symbol .and) rest)
  | '|' => some (oneOrTwo c (.symbol .or) '|' (.symbol .or) rest)
  | '!' => some (oneOrTwo c (.symbol .bang) '=' (.symbol .bangEq) rest)
  | '<' => some (oneOrTwo c (.symbol .lt) '=' (.symbol .ltEq) rest)
  | '>' => some (oneOrTwo c (.symbol .gt) '=' (.symbol .gtEq) rest)
  | '=' =>
    match rest with
    | '<' :: tail => some (token (.keyword .asKw) ['=', '<'], tail)
    | rest => some (oneOrTwo c (.symbol .eq) '=' (.symbol .eqEq) rest)
  | c => (single? c).map fun s => (token (.symbol s) [c], rest)

def next? (c : Char) (rest : List Char) : Option (Piece × List Char) :=
  if isBlank c then some (blank c, rest)
  else if c = '#' then some (afterHash rest)
  else if c = '"' then some (afterQuote rest)
  else if isDigit c then some (afterDigit c rest)
  else if isWordStart c then some (afterLetter c rest)
  else symbol? c rest

theorem splitClose_append (seen cs : List Char) :
    match splitClose seen cs with
    | (body, some tail) => body ++ '*' :: '#' :: tail = seen.reverse ++ cs
    | (body, none) => body = seen.reverse ++ cs := by
  fun_induction splitClose seen cs with
  | case1 => simp
  | case2 seen c rest _ ih => simpa using ih
  | case3 => simp

/-- The piece starts with `c`, and `rest` is the remainder of the piece and then what is left. -/
def Takes (c : Char) (rest : List Char) (r : Piece × List Char) : Prop :=
  ∃ more, r.1.text = c :: more ∧ more ++ r.2 = rest

theorem afterHash_takes (rest : List Char) : Takes '#' rest (afterHash rest) := by
  unfold afterHash
  split
  · next rest =>
    have h := splitClose_append [] rest
    split <;> simp_all [Takes, text]
  · simp [Takes, text]

theorem afterQuote_takes (rest : List Char) : Takes '"' rest (afterQuote rest) := by
  have h := List.takeWhile_append_dropWhile (p := (· ≠ '"')) (l := rest)
  unfold afterQuote
  dsimp only
  split <;>
  · next h' =>
    rw [h'] at h
    simpa [Takes, text] using h

theorem afterDigit_takes (d : Char) (rest : List Char) : Takes d rest (afterDigit d rest) := by
  have h := List.takeWhile_append_dropWhile (p := isDigit) (l := rest)
  unfold afterDigit
  dsimp only
  split <;> simp_all [Takes, text]

theorem afterLetter_takes (c : Char) (rest : List Char) : Takes c rest (afterLetter c rest) := by
  simp [Takes, afterLetter, text]

theorem oneOrTwo_takes (c : Char) (kind : Kind) (next : Char) (longer : Kind) (rest : List Char) :
    Takes c rest (oneOrTwo c kind next longer rest) := by
  unfold oneOrTwo
  split
  · split <;> simp [Takes, text]
  · simp [Takes, text]

theorem symbol?_takes {c : Char} {rest : List Char} {r : Piece × List Char}
    (h : symbol? c rest = some r) : Takes c rest r := by
  unfold symbol? at h
  split at h
  case h_6 =>
    split at h
    · cases h; simp [Takes, text]
    · rw [← Option.some.inj h]; exact oneOrTwo_takes ..
  case h_7 =>
    obtain ⟨s, -, rfl⟩ := Option.map_eq_some_iff.1 h
    simp [Takes, text]
  all_goals rw [← Option.some.inj h]; exact oneOrTwo_takes ..

/-- A step takes its piece off the front and leaves the rest as it is. -/
theorem next?_takes {c : Char} {rest : List Char} {r : Piece × List Char}
    (h : next? c rest = some r) : Takes c rest r := by
  unfold next? at h
  split at h
  · cases h; simp [Takes, text]
  split at h
  · next hc => rw [← Option.some.inj h, hc]; exact afterHash_takes rest
  split at h
  · next hc => rw [← Option.some.inj h, hc]; exact afterQuote_takes rest
  split at h
  · rw [← Option.some.inj h]; exact afterDigit_takes c rest
  split at h
  · rw [← Option.some.inj h]; exact afterLetter_takes c rest
  · exact symbol?_takes h

theorem length_of_next? {c : Char} {rest : List Char} {r : Piece × List Char}
    (h : next? c rest = some r) : r.2.length < (c :: rest).length := by
  obtain ⟨more, -, hm⟩ := next?_takes h
  rw [← hm]
  simp only [List.length_cons, List.length_append]
  omega

end Piece
end ClassAsm
