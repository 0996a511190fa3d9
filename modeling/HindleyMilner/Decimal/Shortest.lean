import HindleyMilner.Decimal.Nearest

/-!
The fewest decimal digits that read back as a given double, and of those the nearest to it.
-/

namespace HindleyMilner.Decimal

/-- Numerator and denominator of the double. -/
def Double.ratio (x : Double) : Nat × Nat :=
  (x.mantissa * Nat.pow 2 x.exponent.toNat, Nat.pow 2 (-x.exponent).toNat)

/-- The power of ten just above a positive double: it is below `10 ^ x.magnitude`. -/
def Double.magnitude (x : Double) : Int :=
  let (n, d) := x.ratio
  (digitCount (n * Nat.pow 10 400 / d) : Int) - 400

/-- The two neighbours of `x` with `count` digits, tested by reading them back. -/
def Double.withDigits? (x : Double) (count : Nat) : Option (Nat × Int) :=
  let e := x.magnitude - count
  let (n, d) := x.ratio
  let n := n * Nat.pow 10 (-e).toNat
  let d := d * Nat.pow 10 e.toNat
  let below := n / d
  let nearer := roundDiv n d
  let further := if nearer = below then below + 1 else below
  ([nearer, further].find? fun c => nearest? c e = some x).map fun c =>
    if c = Nat.pow 10 count then (1, e + count) else (c, e)

/-- Seventeen digits always suffice. -/
def Double.shortest (x : Double) : Nat × Int :=
  if x.mantissa = 0 then (0, 0)
  else ((List.range 17).findSome? fun k => x.withDigits? (k + 1)).getD (0, 0)

end HindleyMilner.Decimal
