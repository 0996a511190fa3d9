import HindleyMilner.Expr.Encoding
import HindleyMilner.Fault
import HindleyMilner.Json.Reader
import HindleyMilner.Json.Shown

/-!
Why a program cannot be loaded.
-/

namespace HindleyMilner

/-- What a field must hold. -/
inductive FieldKind where
  | integer
  | boolean
  | text
deriving DecidableEq, Repr

def FieldKind.name : FieldKind → String
  | integer => "int"
  | boolean => "bool"
  | text => "str"

/-- Ways in which an encoded program is malformed. -/
inductive Malformed where
  | notObject (value : Json)
  | unknownKind (kind : Json)
  | badLocation (value : Json)
  | missingField (kind : Kind) (field : Text)
  | wrongField (kind : Kind) (field : Text) (expected : FieldKind)
  | unknownOperator (name : Json)
  | invalidText (flaw : Json.Flaw)
  | tooDeep (file : Option Text)
  | invalidBytes (file : Text) (reason : String) (offset : Nat)

def Malformed.message : Malformed → Text
  | notObject value => "expected a node object, got " ++ value.kindName
  | unknownKind kind => "unknown node kind " ++ kind.shown
  | badLocation value => "location must be [line, column], got " ++ value.shown
  | missingField kind field =>
      "'" ++ kind.name ++ "' node is missing field " ++ Text.quoted field
  | wrongField kind field expected =>
      "field " ++ Text.quoted field ++ " of '" ++ kind.name ++ "' must be " ++ expected.name
  | unknownOperator name => "unknown operator " ++ name.shown
  | invalidText flaw => "invalid JSON: " ++ flaw.message
  | tooDeep file =>
      let source : Text := match file with
        | none | some [] => ""
        | some file => " in " ++ file
      "expression tree" ++ source ++ " is nested deeper than the recursion limit allows"
  | invalidBytes file reason offset =>
      file ++ " is not valid UTF-8: " ++ reason ++ " at byte " ++ toString offset

/-- A program that is malformed, or one that runs into a limit of the reader itself: an array or
object cannot be looked up as an operator, and a numeral cannot be too long. -/
inductive LoadError where
  | malformed (cause : Malformed) (place : Option Location)
  | compoundOperator (operator : Json)
  | longNumeral (digits limit : Nat)

namespace LoadError

def place : LoadError → Option Location
  | malformed _ place => place
  | compoundOperator _ | longNumeral .. => none

def message : LoadError → Text
  | malformed cause place => report place "E0204" cause.message
  | compoundOperator operator => "unhashable type: " ++ Text.quoted operator.kindName
  | longNumeral digits limit =>
      "Exceeds the limit (" ++ toString limit ++ " digits) for integer string conversion: " ++
        "value has " ++ toString digits ++
        " digits; use sys.set_int_max_str_digits() to increase the limit"

end LoadError

end HindleyMilner
