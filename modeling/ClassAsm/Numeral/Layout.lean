import ClassAsm.Numeral.Shortest

/-! How a double is written. The digits are the shortest that read back; a layout decides where the
point goes, when an exponent is used and how the special values are spelled. -/

namespace ClassAsm

structure FloatLayout where
  /-- Exponents of the leading digit that are written positionally. -/
  positional : Int → Bool
  /-- Whole numbers get a `.0` in positional form. -/
  pointInWhole : Bool
  /-- A single digit before an exponent gets a `.0`. -/
  pointBeforeExponent : Bool
  exponentMark : String

namespace FloatLayout

/-- The plain form: always positional, nothing after a whole number. -/
def plain : FloatLayout := ⟨fun _ => true, false, false, "e"⟩

/-- The scientific form: an exponent below `1e-4` and from `1e16` on. -/
def scientific : FloatLayout := ⟨fun e => -4 ≤ e && e < 16, true, false, "e"⟩

/-- The operand form of the assembly text: a point is always there and the exponent mark is `E`. -/
def operand : FloatLayout := ⟨scientific.positional, true, true, "E"⟩

def zeros (n : Nat) : String := "".pushn '0' n

/-- The digits with the point after the first `n`, padded with zeros on either side. -/
def pointed (l : FloatLayout) (digits : String) (n : Int) : String :=
  let count : Int := digits.length
  if n ≤ 0 then "0." ++ zeros (-n).toNat ++ digits
  else if n < count then
    String.ofList (digits.toList.take n.toNat) ++ "." ++ String.ofList (digits.toList.drop n.toNat)
  else digits ++ zeros (n - count).toNat ++ if l.pointInWhole then ".0" else ""

def withExponent (l : FloatLayout) (digits : String) (e : Int) : String :=
  let first := String.ofList (digits.toList.take 1)
  let more := String.ofList (digits.toList.drop 1)
  let fraction := if more.isEmpty then (if l.pointBeforeExponent then ".0" else "") else "." ++ more
  first ++ fraction ++ l.exponentMark ++ toString e

def decimal (l : FloatLayout) (d : Decimal) : String :=
  let digits := toString d.digits
  let e : Int := d.exponent + digits.length - 1
  if l.positional e then l.pointed digits (e + 1) else l.withExponent digits e

def magnitude (l : FloatLayout) : Magnitude → String
  | .finite v =>
    if v.significand = 0 then (if l.pointInWhole then "0.0" else "0")
    else l.decimal (Decimal.shortest v)
  | .infinite => "inf"
  | .notANumber => "NaN"

/-- The text of a double; a value that is no number has no sign. -/
def render (l : FloatLayout) (x : Binary64) : String :=
  let body := l.magnitude x.magnitude
  if x.isNegative && x.magnitude != .notANumber then "-" ++ body else body

end FloatLayout
end ClassAsm
