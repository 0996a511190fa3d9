import HindleyMilner.Json.Basic
import HindleyMilner.Text.Digits
import HindleyMilner.Text.Hex

/-!
Writing a value as text in printable ASCII, either on one line or with one item per line.
-/

namespace HindleyMilner.Json

def unitEscape (u : Nat) : Text :=
  '\\' :: 'u' :: Text.ofChars (Text.hex 4 u)

/-- A character beyond the first 65536 is written as the two halves of its pair. -/
def escape (p : Point) : Text :=
  let n := p.toNat
  if p = '"' ∨ p = '\\' then ['\\', p]
  else if n = 0x0A then ['\\', 'n']
  else if n = 0x0D then ['\\', 'r']
  else if n = 0x09 then ['\\', 't']
  else if n = 0x08 then ['\\', 'b']
  else if n = 0x0C then ['\\', 'f']
  else if 0x20 ≤ n ∧ n < 0x7F then [p]
  else if n < 0x10000 then unitEscape n
  else unitEscape (0xD800 + (n - 0x10000) / 0x400) ++ unitEscape (0xDC00 + (n - 0x10000) % 0x400)

def quote (text : Text) : Text :=
  '"' :: (text.flatMap escape ++ [.char '"'])

inductive Layout where
  | compact
  | lines (indent : Nat)
deriving DecidableEq, Repr

/-- No indent is one line; a negative one is no spaces. -/
def Layout.ofIndent : Option Int → Layout
  | none => compact
  | some n => lines n.toNat

/-- What stands after an opening bracket, and before the closing one of the level above. -/
def Layout.gap (layout : Layout) (level : Nat) : Text :=
  match layout with
  | compact => ""
  | lines indent => "\n" ++ Text.spaces (indent * level)

def Layout.separator (layout : Layout) (level : Nat) : Text :=
  match layout with
  | compact => ", "
  | lines _ => "," ++ layout.gap level

def realText : Decimal → String
  | .notANumber => "NaN"
  | .infinite negative => if negative then "-Infinity" else "Infinity"
  | x => x.text

mutual

def write (layout : Layout) (level : Nat) : Json → Text
  | null => "null"
  | bool value => if value then "true" else "false"
  | int value => toString value
  | real value => realText value
  | str value => quote value
  | arr [] => "[]"
  | arr (item :: items) =>
      "[" ++ layout.gap (level + 1) ++ write layout (level + 1) item ++
        writeItems layout (level + 1) items ++ layout.gap level ++ "]"
  | obj [] => "\x7b\x7d"
  | obj ((key, value) :: fields) =>
      "\x7b" ++ layout.gap (level + 1) ++ quote key ++ ": " ++ write layout (level + 1) value ++
        writeFields layout (level + 1) fields ++ layout.gap level ++ "\x7d"

/-- The items after the first. -/
def writeItems (layout : Layout) (level : Nat) : List Json → Text
  | [] => ""
  | item :: items =>
      layout.separator level ++ write layout level item ++ writeItems layout level items

/-- The fields after the first. -/
def writeFields (layout : Layout) (level : Nat) : List (Text × Json) → Text
  | [] => ""
  | (key, value) :: fields =>
      layout.separator level ++ quote key ++ ": " ++ write layout level value ++
        writeFields layout level fields

end

mutual

/-- The whole numbers in a value, in the order in which they are written. -/
def integers : Json → List Int
  | null | bool _ | real _ | str _ => []
  | int value => [value]
  | arr items => integersOfItems items
  | obj fields => integersOfFields fields

def integersOfItems : List Json → List Int
  | [] => []
  | item :: items => item.integers ++ integersOfItems items

def integersOfFields : List (Text × Json) → List Int
  | [] => []
  | (_, value) :: fields => value.integers ++ integersOfFields fields

end

def render (layout : Layout) (value : Json) : Except Text.LongNumeral Text :=
  Text.limited value.integers (write layout 0 value)

end HindleyMilner.Json
