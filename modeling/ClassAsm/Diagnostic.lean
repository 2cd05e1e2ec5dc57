import ClassAsm.Failure
import ClassAsm.Position

/-! Warnings, and how warnings and failures are shown: the lines around the span with a row of
carets under it, then the message. -/

namespace ClassAsm

inductive WarningCode where
  | none | unknown | mainNotDefined | uselessCode | unreachableCode | invalidClassMethod
  | invalidArchitecture
deriving DecidableEq, Repr

namespace WarningCode

def all : List WarningCode :=
  [none, unknown, mainNotDefined, uselessCode, unreachableCode, invalidClassMethod,
   invalidArchitecture]

def value : WarningCode → Nat
  | none => 0 | unknown => 1 | mainNotDefined => 2 | uselessCode => 3 | unreachableCode => 4
  | invalidClassMethod => 5 | invalidArchitecture => 6

def label : WarningCode → String
  | none => "None" | unknown => "Unknown" | mainNotDefined => "MainNotDefined"
  | uselessCode => "UselessCode" | unreachableCode => "UnreachableCode"
  | invalidClassMethod => "InvalidClassMethod" | invalidArchitecture => "InvalidArchitecture"

end WarningCode

inductive Concern where
  | mainNotDefined
  | uselessCode
  | unreachableCode
  | invalidOperatorName (name : String)
  | unknownArchitecture (name : String)
deriving DecidableEq, Repr

namespace Concern

def code : Concern → WarningCode
  | mainNotDefined => .mainNotDefined
  | uselessCode => .uselessCode
  | unreachableCode => .unreachableCode
  | invalidOperatorName _ => .invalidClassMethod
  | unknownArchitecture _ => .invalidArchitecture

def message : Concern → String
  | mainNotDefined => "Function 'main' is not defined! This program will not run!"
  | uselessCode => "This code is useless, it does not do anything"
  | unreachableCode => "This code is unreachable, it will never run"
  | invalidOperatorName name =>
    s!"Invalid class method name '{name}', use one of " ++ ", ".intercalate Operation.keys
  | unknownArchitecture name => s!"Unknown architecture '{name}', using the assembler default"

end Concern

structure Warning where
  concern : Concern
  span : Option Span
deriving DecidableEq, Repr

inductive Severity where
  | error
  | warning
deriving DecidableEq, Repr

def Severity.label : Severity → String
  | error => "Error"
  | warning => "Warning"

/-- A report that is ready to be shown. -/
structure Diagnostic where
  severity : Severity
  code : Int
  label : String
  message : String
  span : Option Span
deriving DecidableEq, Repr

def Warning.diagnostic (w : Warning) : Diagnostic :=
  ⟨.warning, w.concern.code.value, w.concern.code.label, w.concern.message, w.span⟩

def Failure.diagnostic (f : Failure) : Diagnostic :=
  ⟨.error, f.code.value, f.code.label, f.message, f.span⟩

namespace Diagnostic

def isWarning (d : Diagnostic) (c : WarningCode) : Bool :=
  d.severity == .warning && d.code == c.value

def padLeft (width : Nat) (text : String) : String :=
  "".pushn ' ' (width - text.length) ++ text

/-- One row of an excerpt: a line number or nothing, a mark, and a text. -/
def row (gutter : Nat) (number mark text : String) : String :=
  padLeft gutter number ++ " " ++ mark ++ " " ++ text

/-- The columns that get a caret: where they begin and how many there are. A span that ends on a
later line is cut at the end of its first one, and there is always one caret. -/
def caretRange (source : List Char) (span : Span) : Nat × Nat :=
  let first := Position.ofOffset source span.start
  let last := Position.ofOffset source span.stop
  let text := (lines source)[first.line]?.getD []
  let stop := if last.line = first.line then last.column else byteLength text
  (first.column, max (stop - first.column) 1)

/-- The rows above the message: the position, the line before the span, the line of the span with
its carets, and the line after. -/
def excerpt (source : List Char) (path : String) (span : Span) : List String :=
  let all := lines source
  let line := (Position.ofOffset source span.start).line
  let (column, width) := caretRange source span
  let text (n : Nat) : String := String.ofList (all[n]?.getD [])
  let place := s!"line {line + 1}:{column + 1}" ++ if width = 1 then "" else s!"-{column + width}"
  let gutter := (toString (line + 2)).length
  let before := if line = 0 then [] else [row gutter (toString line) "|" (text (line - 1))]
  let after := if line + 1 < all.length then [row gutter (toString (line + 2)) "|" (text (line + 1))]
    else []
  [s!"In file '{path}' at {place} :"] ++ before ++
    [row gutter (toString (line + 1)) ">" (text line),
     row gutter "" "|" ("".pushn ' ' column ++ "".pushn '^' width)] ++ after

def summary (d : Diagnostic) : String :=
  d.severity.label ++ " " ++ d.label ++ " [" ++ toString d.code ++ "] : " ++ d.message

def render (d : Diagnostic) (source : List Char) (path : String) : String :=
  let rows := match d.span with
    | none => []
    | some span => excerpt source path span
  "\n".intercalate (rows ++ [d.summary])

end Diagnostic
end ClassAsm
