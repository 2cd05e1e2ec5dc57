/-! String operands of the assembly text. A backslash, a quote and a newline are written with a
backslash; every other control character as a backslash and three octal digits. So the operand
stays on one line whatever the string holds. -/

namespace ClassAsm.Text

/-- The code points U+0000 to U+001F and U+007F to U+009F. -/
def isControl (c : Char) : Bool := c.toNat < 0x20 || (0x7F ≤ c.toNat && c.toNat < 0xA0)

/-- The digit of a number below eight. -/
def octalDigit (n : Nat) : Char := Char.ofNat (48 + n % 8)

def escapeChar (c : Char) : List Char :=
  if c = '\\' then ['\\', '\\']
  else if c = '"' then ['\\', '"']
  else if c = '\n' then ['\\', 'n']
  else if isControl c then
    ['\\', octalDigit (c.toNat / 64), octalDigit (c.toNat / 8), octalDigit c.toNat]
  else [c]

def escape (s : String) : String := String.ofList (s.toList.flatMap escapeChar)

end ClassAsm.Text
