import HindleyMilner.Text.Basic

/-!
Places in a source file. A line or a column is a number, or a flag that was handed in where a
number belongs and is kept as it came.
-/

namespace HindleyMilner

inductive Coordinate where
  | number (value : Int)
  | flag (value : Bool)
deriving DecidableEq, Repr

def Coordinate.text : Coordinate → Text
  | number value => toString value
  | flag value => if value then "True" else "False"

structure Location where
  line : Coordinate
  column : Coordinate
  offset : Int := 0
  file : Option Text := none
deriving DecidableEq, Repr

/-- The file is named only if it has a name. -/
def Location.text (place : Location) : Text :=
  let position := place.line.text ++ ":" ++ place.column.text
  match place.file with
  | none | some [] => position
  | some file => file ++ ":" ++ position

end HindleyMilner
