import ClassAsm.Source.Piece
import ClassAsm.Directive
import ClassAsm.Failure
import ClassAsm.Position

/-! Splitting a whole source text. The pieces are laid end to end, which gives each its span; the
tokens and the directives are then read off in order. -/

namespace ClassAsm

/-- The pieces of a text in order, and what is left where no piece starts. `seen` holds the pieces
before, latest first. -/
def Piece.scan (seen : List Piece) : List Char → List Piece × List Char
  | [] => (seen.reverse, [])
  | c :: rest =>
    match h : Piece.next? c rest with
    | none => (seen.reverse, c :: rest)
    | some (p, tail) =>
      have : tail.length < (c :: rest).length := Piece.length_of_next? h
      scan (p :: seen) tail
termination_by cs => cs.length
decreasing_by exact this

structure Gathered where
  offset : Nat := 0
  tokens : List Token := []
  directives : List Directive := []

namespace Gathered

/-- A comment that opens with a colon may be a directive. -/
def directive? (body : List Char) (span : Span) : Option Directive :=
  match body with
  | ':' :: body => Directive.parse? body span
  | _ => none

def add (g : Gathered) (p : Piece) : Gathered :=
  let stop := g.offset + byteLength p.text
  let span : Span := ⟨g.offset, stop⟩
  match p with
  | .blank _ => { g with offset := stop }
  | .comment _ body =>
    { g with offset := stop, directives := (directive? body span).toList ++ g.directives }
  | .token kind text =>
    { g with offset := stop, tokens := ⟨kind, String.ofList text, span⟩ :: g.tokens }

end Gathered

/-- The result of splitting a source: its directives, also those before a failure, and its
tokens with the end mark. -/
structure Lexed where
  directives : List Directive
  tokens : Except Failure (List Token)

def Lexed.ofSource (source : List Char) : Lexed :=
  let (pieces, left) := Piece.scan [] source
  let g := pieces.foldl Gathered.add {}
  let tokens := match left with
    | [] => .ok (⟨.eof, "", .point g.offset⟩ :: g.tokens).reverse
    | c :: _ => .error ((Fault.unexpectedCharacter c).at ⟨g.offset, g.offset + c.utf8Size⟩)
  ⟨g.directives.reverse, tokens⟩

end ClassAsm
