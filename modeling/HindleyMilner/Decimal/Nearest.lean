/-!
Doubles near a decimal number. A finite double is `mantissa * 2 ^ exponent` with a mantissa below
`2 ^ 53` and an exponent from -1074 to 971.
-/

namespace HindleyMilner.Decimal

structure Double where
  mantissa : Nat
  exponent : Int
deriving DecidableEq, Repr

/-- Nearest whole number to `n / d`. A half goes to the even neighbour. -/
def roundDiv (n d : Nat) : Nat :=
  let q := n / d
  let r := n % d
  if 2 * r < d then q
  else if d < 2 * r then q + 1
  else if q % 2 = 0 then q else q + 1

def digitCount (n : Nat) : Nat :=
  (Nat.toDigits 10 n).length

/-- The double nearest to `digits * 10 ^ exponent`, or nothing above the largest one. The first
two tests keep the powers of ten small; both bounds lie outside the range of doubles. -/
def nearest? (digits : Nat) (exponent : Int) : Option Double :=
  let magnitude : Int := digitCount digits + exponent
  if digits = 0 ∨ magnitude < -330 then some ⟨0, -1074⟩
  else if 310 < magnitude then none
  else
    let n := digits * Nat.pow 10 exponent.toNat
    let d := Nat.pow 10 (-exponent).toNat
    let low : Int := n.log2 - d.log2 - 53
    let fits := n * Nat.pow 2 (-low).toNat < d * Nat.pow 2 low.toNat * Nat.pow 2 53
    let q := max (if fits then low else low + 1) (-1074)
    let m := roundDiv (n * Nat.pow 2 (-q).toNat) (d * Nat.pow 2 q.toNat)
    let rounded : Double := if m = Nat.pow 2 53 then ⟨Nat.pow 2 52, q + 1⟩ else ⟨m, q⟩
    if 971 < rounded.exponent then none else some rounded

end HindleyMilner.Decimal
