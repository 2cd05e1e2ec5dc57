import ClassAsm.Numeral.Binary

/-! The shortest decimal that reads back to a given double: of all decimals in the interval that
rounds to the value, one with the fewest digits, and of those the nearest, the greater on a tie. -/

namespace ClassAsm

/-- The decimal `digits * 10 ^ exponent`. -/
structure Decimal where
  digits : Nat
  exponent : Int
deriving DecidableEq, Repr, Inhabited

namespace Decimal

def compareScaled (a : Nat) (i : Int) (b : Nat) (j : Int) : Ordering :=
  compare (a * pow10 i.toNat * pow2 (-j).toNat) (b * pow2 j.toNat * pow10 (-i).toNat)

/-- The decimal lies in the interval that rounds to the double `v`: from halfway to the neighbour
below, which is half as far below a power of two, to halfway to the one above, ends included when
the significand is even. -/
def readsBack (v : Dyadic) (d : Decimal) : Bool :=
  let closeBelow := v.significand == pow2 FloatFormat.double.fractionBits &&
    FloatFormat.double.leastUnit < v.unit
  let low := if closeBelow then 4 * v.significand - 1 else 4 * v.significand - 2
  let toLow := compareScaled d.digits d.exponent low (v.unit - 2)
  let toHigh := compareScaled d.digits d.exponent (4 * v.significand + 2) (v.unit - 2)
  let even := v.significand % 2 == 0
  (toLow == .gt || even && toLow == .eq) && (toHigh == .lt || even && toHigh == .eq)

/-- The least `k` with `v < 10 ^ k`, for a positive `v`. The first guess is at most two off. -/
def magnitudeOf (v : Dyadic) : Int :=
  let guess := ((v.significand.log2 : Int) + v.unit) * 1233 / 4096
  ([guess - 1, guess, guess + 1, guess + 2].find? fun k =>
    compareScaled 1 k v.significand v.unit == .gt).getD (guess + 3)

/-- The greatest multiple of `10 ^ e` that is at most `v`, in units of `10 ^ e`. -/
def floorOn (v : Dyadic) (e : Int) : Nat :=
  v.significand * pow2 v.unit.toNat * pow10 (-e).toNat / (pow2 (-v.unit).toNat * pow10 e.toNat)

/-- The decimal on the grid of step `10 ^ e` that reads back to `v`, if there is one. -/
def onGrid? (v : Dyadic) (e : Int) : Option Decimal :=
  let low : Decimal := ⟨floorOn v e, e⟩
  let high : Decimal := ⟨low.digits + 1, e⟩
  match readsBack v low, readsBack v high with
  | true, true =>
    -- twice the value against the sum of the two
    if compareScaled (low.digits + high.digits) e (2 * v.significand) v.unit == .gt then low
    else high
  | true, false => low
  | false, true => high
  | false, false => none

def dropZeros : Nat → Decimal → Decimal
  | 0, d => d
  | n + 1, d => if d.digits % 10 = 0 then dropZeros n ⟨d.digits / 10, d.exponent + 1⟩ else d

def exact (v : Dyadic) : Decimal :=
  ⟨v.significand * pow2 v.unit.toNat * Nat.pow 5 (-v.unit).toNat, min v.unit 0⟩

/-- The shortest decimal of a positive value: the coarsest grid that has one, from one digit to
seventeen. -/
def shortest (v : Dyadic) : Decimal :=
  let k := magnitudeOf v
  let found := (List.range 17).findSome? fun n : Nat => onGrid? v (k - 1 - (n : Int))
  dropZeros 17 (found.getD (exact v))

end Decimal
end ClassAsm
