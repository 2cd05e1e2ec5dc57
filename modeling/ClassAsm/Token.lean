import ClassAsm.Span
import ClassAsm.Numeral.Layout
import ClassAsm.Text.Quoted

/-! Tokens of the source language: literals, names, keywords and symbols, each with the text it was
read from and its span. A token sequence ends with one `eof`. -/

namespace ClassAsm

inductive Keyword where
  | publicKw | privateKw | classKw | defKw | returnKw | ifKw | elseKw | elifKw | whileKw
  | namespaceKw | staticKw | asKw | fieldKw
deriving DecidableEq, Repr

namespace Keyword

def spellings : List (String × Keyword) :=
  [("public", publicKw), ("private", privateKw), ("class", classKw), ("def", defKw),
   ("return", returnKw), ("if", ifKw), ("else", elseKw), ("elif", elifKw), ("while", whileKw),
   ("namespace", namespaceKw), ("static", staticKw), ("as", asKw), ("field", fieldKw)]

def ofString? (word : String) : Option Keyword := spellings.lookup word

def label : Keyword → String
  | publicKw => "Public" | privateKw => "Private" | classKw => "Class" | defKw => "Def"
  | returnKw => "Return" | ifKw => "If" | elseKw => "Else" | elifKw => "Elif"
  | whileKw => "While" | namespaceKw => "Namespace" | staticKw => "Static" | asKw => "As"
  | fieldKw => "Field"

end Keyword

inductive Symbol where
  | plus | minus | star | slash | percent
  | eqEq | bangEq | lt | gt | ltEq | gtEq | and | or | bang
  | eq | colon | semicolon | lparen | rparen | comma | dot
deriving DecidableEq, Repr

def Symbol.label : Symbol → String
  | .plus => "Plus" | .minus => "Minus" | .star => "Star" | .slash => "Slash"
  | .percent => "Percent" | .eqEq => "EqEq" | .bangEq => "BangEq" | .lt => "Lt" | .gt => "Gt"
  | .ltEq => "LtEq" | .gtEq => "GtEq" | .and => "And" | .or => "Or" | .bang => "Bang"
  | .eq => "Eq" | .colon => "Colon" | .semicolon => "Semicolon" | .lparen => "LParen"
  | .rparen => "RParen" | .comma => "Comma" | .dot => "Dot"

/-- What a token is, without its place in the source. -/
inductive Kind where
  /-- Digits whose value is below `2 ^ 63`. -/
  | int (value : Nat)
  /-- Digits with a point, or too many digits for an integer. -/
  | float (value : Binary64)
  /-- The text between two quotes. -/
  | str (content : String)
  | ident (name : String)
  | keyword (word : Keyword)
  | symbol (sign : Symbol)
  | eof
deriving DecidableEq, Repr

namespace Kind

def label : Kind → String
  | int _ => "Int" | float _ => "Float" | str _ => "Str" | ident _ => "Ident"
  | keyword k => k.label
  | symbol s => s.label
  | eof => "Eof"

def describe : Kind → String
  | int v => s!"integer '{v}'"
  | float v => "float '" ++ FloatLayout.plain.render v ++ "'"
  | str _ => "string"
  | ident name => s!"identifier '{name}'"
  | eof => "end of file"
  | k => k.label

def listing : Kind → String
  | int v => s!"Int({v})"
  | float v => "Float(" ++ FloatLayout.scientific.render v ++ ")"
  | str content => "Str(" ++ Text.quoted content ++ ")"
  | ident name => "Ident(" ++ Text.quoted name ++ ")"
  | k => k.label

end Kind

structure Token where
  kind : Kind
  /-- The source text of the token, quotes included. -/
  text : String
  span : Span
deriving DecidableEq, Repr

def Token.listing (t : Token) : String := t.kind.listing ++ " " ++ Text.quoted t.text

/-- A word is a keyword or a name. -/
def Kind.ofWord (word : String) : Kind :=
  match Keyword.ofString? word with
  | some k => .keyword k
  | none => .ident word

end ClassAsm
