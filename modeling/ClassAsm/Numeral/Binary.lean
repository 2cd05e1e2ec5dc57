/-! Binary floating-point values, kept as their bit patterns. The only arithmetic is rounding: a
fraction goes to the nearest value of a format, a tie to the even significand, and what is too
large to infinity. Everything is exact integer arithmetic. -/

namespace ClassAsm

abbrev pow2 (n : Nat) : Nat := Nat.pow 2 n

abbrev pow10 (n : Nat) : Nat := Nat.pow 10 n

/-- An interchange format: one sign bit above `exponentBits` above `fractionBits`. -/
structure FloatFormat where
  fractionBits : Nat
  exponentBits : Nat
deriving DecidableEq, Repr

namespace FloatFormat

def single : FloatFormat := ⟨23, 8⟩
def double : FloatFormat := ⟨52, 11⟩

def bias (f : FloatFormat) : Nat := pow2 (f.exponentBits - 1) - 1

/-- The exponent of one unit of a subnormal significand. -/
def leastUnit (f : FloatFormat) : Int := 1 - (f.bias : Int) - f.fractionBits

def infinity (f : FloatFormat) : Nat := (pow2 f.exponentBits - 1) * pow2 f.fractionBits

def signBit (f : FloatFormat) : Nat := pow2 (f.fractionBits + f.exponentBits)

end FloatFormat

/-- `num / den` rounded to an integer, a half to the even neighbour. -/
def roundHalfEven (num den : Nat) : Nat :=
  let whole := num / den
  let twice := 2 * (num % den)
  if twice < den then whole
  else if den < twice then whole + 1
  else whole + whole % 2

/-- The greatest `e` with `2 ^ e ≤ num / den`, for positive `num` and `den`. -/
def floorLog2 (num den : Nat) : Int :=
  let guess : Int := (num.log2 : Int) - den.log2
  if den * pow2 guess.toNat ≤ num * pow2 (-guess).toNat then guess else guess - 1

/-- The bits of the value of format `f` nearest to the fraction `num / den`. The significand is
added to the shifted exponent, so that rounding up to the next power of two carries into it. -/
def FloatFormat.nearest (f : FloatFormat) (num den : Nat) : Nat :=
  if num = 0 then 0 else
  let unit := max (floorLog2 num den - f.fractionBits) f.leastUnit
  let significand := roundHalfEven (num * pow2 (-unit).toNat) (den * pow2 unit.toNat)
  min ((unit - f.leastUnit).toNat * pow2 f.fractionBits + significand) f.infinity

/-- A non-negative real `significand * 2 ^ unit`. -/
structure Dyadic where
  significand : Nat
  unit : Int
deriving DecidableEq, Repr

/-- What a bit pattern stands for, its sign apart. -/
inductive Magnitude where
  | finite (value : Dyadic)
  | infinite
  | notANumber
deriving DecidableEq, Repr

def FloatFormat.magnitude (f : FloatFormat) (bits : Nat) : Magnitude :=
  let exponent := bits / pow2 f.fractionBits
  let fraction := bits % pow2 f.fractionBits
  if exponent = pow2 f.exponentBits - 1 then
    if fraction = 0 then .infinite else .notANumber
  else if exponent = 0 then .finite ⟨fraction, f.leastUnit⟩
  else .finite ⟨pow2 f.fractionBits + fraction, f.leastUnit + exponent - 1⟩

def FloatFormat.ofDyadic (f : FloatFormat) (d : Dyadic) : Nat :=
  f.nearest (d.significand * pow2 d.unit.toNat) (pow2 (-d.unit).toNat)

structure Binary64 where
  bits : UInt64
deriving DecidableEq, Repr, Inhabited

structure Binary32 where
  bits : UInt32
deriving DecidableEq, Repr, Inhabited

namespace Binary64

def isNegative (x : Binary64) : Bool := FloatFormat.double.signBit ≤ x.bits.toNat

def magnitude (x : Binary64) : Magnitude :=
  FloatFormat.double.magnitude (x.bits.toNat % FloatFormat.double.signBit)

def ofDecimal (digits places : Nat) : Binary64 :=
  ⟨.ofNat (FloatFormat.double.nearest digits (pow10 places))⟩

end Binary64

namespace Binary32

def isNegative (x : Binary32) : Bool := FloatFormat.single.signBit ≤ x.bits.toNat

def magnitude (x : Binary32) : Magnitude :=
  FloatFormat.single.magnitude (x.bits.toNat % FloatFormat.single.signBit)

end Binary32

/-- The same sign and magnitude in another format, rounded where it has to be. -/
def FloatFormat.encode (f : FloatFormat) (negative : Bool) (m : Magnitude) : Nat :=
  (if negative then f.signBit else 0) +
    match m with
    | .finite d => f.ofDyadic d
    | .infinite => f.infinity
    | .notANumber => f.infinity + pow2 (f.fractionBits - 1)

/-- Widening is exact. -/
def Binary32.widen (x : Binary32) : Binary64 :=
  ⟨.ofNat (FloatFormat.double.encode x.isNegative x.magnitude)⟩

def Binary64.narrow (x : Binary64) : Binary32 :=
  ⟨.ofNat (FloatFormat.single.encode x.isNegative x.magnitude)⟩

/-- The greatest finite value of the narrow format, as a wide one. -/
def Binary64.maxSingle : Binary64 := ⟨0x47EFFFFFE0000000⟩

/-- Above every finite value of the narrow format; non-negative values order as their bits do. -/
def Binary64.exceedsSingle (x : Binary64) : Bool :=
  !x.isNegative && x.magnitude != .notANumber && maxSingle.bits < x.bits

end ClassAsm
