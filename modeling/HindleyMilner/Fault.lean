import HindleyMilner.Location
import HindleyMilner.Ty.Printer

/-!
Why a program has no type, and how that is reported: the place if it is known, a code, and the
reason.
-/

namespace HindleyMilner

/-- One line of a report. -/
def report (place : Option Location) (code : String) (reason : Text) : Text :=
  let start : Text := match place with
    | none => ""
    | some place => "[" ++ place.text ++ "] "
  start ++ "error[" ++ code ++ "]: " ++ reason

inductive Fault where
  | unbound (name : Text) (place : Option Location)
  | infinite (name : String) (type : Ty) (place : Option Location)
  | mismatch (left right : Ty) (place : Option Location)
  | notAType (text : String)
deriving DecidableEq, Repr

namespace Fault

def place : Fault → Option Location
  | unbound _ place | infinite _ _ place | mismatch _ _ place => place
  | notAType _ => none

def message : Fault → Text
  | unbound name place => report place "E0102" ("unbound variable '" ++ name ++ "'")
  | infinite name type place =>
      report place "E0113" ("occurs check failed: " ++ Ty.varText name ++ " occurs in " ++
        type.text ++ " (infinite type)")
  | mismatch left right place =>
      report place "E0101" ("cannot unify " ++ left.text ++ " with " ++ right.text)
  | notAType text => "not a type: " ++ Text.quoted text

end Fault

end HindleyMilner
