import HindleyMilner.Text.Basic
import HindleyMilner.Text.Hex

/-!
Text on its way to a stream that takes characters only. A strict stream refuses halves of pairs, a
lenient one writes them by their code point.
-/

namespace HindleyMilner.Text

/-- The halves from `first` to `last` cannot be written. -/
structure Unencodable where
  half : Point
  first : Nat
  last : Nat
deriving DecidableEq, Repr

private def halfEscape (p : Point) : List Char :=
  '\\' :: 'u' :: hex 4 p.toNat

def Unencodable.message (e : Unencodable) : String :=
  let which := if e.first = e.last then
      "character '" ++ String.ofList (halfEscape e.half) ++ "' in position " ++ toString e.first
    else "characters in position " ++ toString e.first ++ "-" ++ toString e.last
  "'utf-8' codec can't encode " ++ which ++ ": surrogates not allowed"

def strict (text : Text) : Except Unencodable String :=
  let first := text.findIdx Point.isHalf
  match text[first]? with
  | some half =>
      .error ⟨half, first, first + ((text.drop first).takeWhile Point.isHalf).length - 1⟩
  | none =>
      .ok (String.ofList (text.filterMap fun
        | .char c => some c
        | .high _ | .low _ => none))

def lenient (text : Text) : String :=
  String.ofList (text.flatMap fun
    | .char c => [c]
    | half => halfEscape half)

end HindleyMilner.Text
