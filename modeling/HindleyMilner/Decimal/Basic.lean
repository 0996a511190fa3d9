import HindleyMilner.Decimal.Shortest

/-!
Numbers written with a fraction or an exponent. Two numerals that a reader of doubles cannot tell
apart become the same value, held as its shortest decimal.
-/

namespace HindleyMilner

inductive Decimal where
  | finite (negative : Bool) (digits : Nat) (exponent : Int)
  | infinite (negative : Bool)
  | notANumber
deriving DecidableEq, Repr

namespace Decimal

/-- Reads `digits * 10 ^ exponent`. -/
def ofNumeral (negative : Bool) (digits : Nat) (exponent : Int) : Decimal :=
  match nearest? digits exponent with
  | none => infinite negative
  | some x =>
      let (n, e) := x.shortest
      finite negative n e

private def zeros (n : Int) : String :=
  String.ofList (List.replicate n.toNat '0')

private def positional (ds : List Char) (point : Int) : String :=
  let count : Int := ds.length
  if point ≤ 0 then "0." ++ zeros (-point) ++ String.ofList ds
  else if count ≤ point then String.ofList ds ++ zeros (point - count) ++ ".0"
  else String.ofList (ds.take point.toNat) ++ "." ++ String.ofList (ds.drop point.toNat)

private def exponential (ds : List Char) (power : Int) : String :=
  let sign := if power < 0 then "-" else "+"
  let pad := if power.natAbs < 10 then "0" else ""
  let fraction := if ds.length ≤ 1 then "" else "." ++ String.ofList (ds.drop 1)
  String.ofList (ds.take 1) ++ fraction ++ "e" ++ sign ++ pad ++ toString power.natAbs

/-- Positional from `0.0001` up to sixteen digits before the point, with an exponent otherwise. -/
def text : Decimal → String
  | notANumber => "nan"
  | infinite negative => (if negative then "-" else "") ++ "inf"
  | finite negative digits exponent =>
      let ds := Nat.toDigits 10 digits
      let point : Int := ds.length + exponent
      let body :=
        if digits = 0 then "0.0"
        else if -4 < point ∧ point ≤ 16 then positional ds point
        else exponential ds (point - 1)
      (if negative then "-" else "") ++ body

end Decimal

end HindleyMilner
