import ClassAsm.Span
import ClassAsm.Text.Blank

/-! Directives: comments of the form `:name>value` that switch a compiler option from within the
source. Names and values ignore ASCII case and the blanks around them. -/

namespace ClassAsm

inductive DirectiveKind where
  | devDebug
  | trimUnreachableCode
  | warnMainNotDefined
deriving DecidableEq, Repr

namespace DirectiveKind

def label : DirectiveKind → String
  | devDebug => "DevDebug"
  | trimUnreachableCode => "TrimUnreachableCode"
  | warnMainNotDefined => "WarnMainNotDefined"

def names : List (String × DirectiveKind) :=
  [("devdebug", devDebug), ("trimunreachablecode", trimUnreachableCode),
   ("warnmainnotdefined", warnMainNotDefined)]

end DirectiveKind

structure Directive where
  kind : DirectiveKind
  value : Bool
  span : Span
deriving DecidableEq, Repr

namespace Directive

def booleans : List (String × Bool) := [("true", true), ("false", false)]

def normalize (cs : List Char) : String := String.ofList ((Text.trim cs).map Char.toLower)

/-- Reads what follows the colon: a name, the first `>`, and `true` or `false`. -/
def parse? (body : List Char) (span : Span) : Option Directive :=
  match body.span (· ≠ '>') with
  | (name, '>' :: value) => do
    let kind ← DirectiveKind.names.lookup (normalize name)
    let value ← booleans.lookup (normalize value)
    pure ⟨kind, value, span⟩
  | _ => none

end Directive
end ClassAsm
