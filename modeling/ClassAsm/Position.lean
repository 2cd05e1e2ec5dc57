import ClassAsm.Span

/-! Lines and columns of a text. Offsets and columns count UTF-8 bytes, lines are separated by
`\n`, and both are counted from zero. -/

namespace ClassAsm

structure Position where
  line : Nat
  column : Nat
deriving DecidableEq, Repr, Inhabited

def byteLength (cs : List Char) : Nat := cs.foldl (fun n c => n + c.utf8Size) 0

namespace Position

/-- Walks `pos` bytes into the text from position `at`; an offset past the end stops there. -/
def advance : List Char → Nat → Position → Position
  | [], _, here => here
  | c :: rest, pos, here =>
    if pos < c.utf8Size then ⟨here.line, here.column + pos⟩
    else if c = '\n' then advance rest (pos - 1) ⟨here.line + 1, 0⟩
    else advance rest (pos - c.utf8Size) ⟨here.line, here.column + c.utf8Size⟩

def ofOffset (source : List Char) (pos : Nat) : Position := advance source pos ⟨0, 0⟩

end Position

def Span.position (a : Span) (source : List Char) : Position := Position.ofOffset source a.start

/-- The lines of a text, without their separators; a text without `\n` is one line. -/
def lines (source : List Char) : List (List Char) :=
  source.foldr (fun c ls =>
    if c = '\n' then [] :: ls
    else match ls with
      | [] => [[c]]
      | l :: ls => (c :: l) :: ls) [[]]

end ClassAsm
