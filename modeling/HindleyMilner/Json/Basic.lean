import HindleyMilner.Decimal.Basic
import HindleyMilner.Text.Basic

/-!
Values of the exchange format. The fields of an object keep the order in which they were written;
a repeated key keeps its first place and its last value.
-/

namespace HindleyMilner

inductive Json where
  | null
  | bool (value : Bool)
  | int (value : Int)
  | real (value : Decimal)
  | str (value : Text)
  | arr (items : List Json)
  | obj (fields : List (Text × Json))
deriving Inhabited

namespace Json

def put (key : Text) (value : Json) : List (Text × Json) → List (Text × Json)
  | [] => [(key, value)]
  | (k, v) :: rest => if k = key then (k, value) :: rest else (k, v) :: put key value rest

def putAll (done fields : List (Text × Json)) : List (Text × Json) :=
  fields.foldl (fun done field => put field.1 field.2 done) done

/-- The object written with these fields, in this order. -/
def ofFields (fields : List (Text × Json)) : Json :=
  obj (putAll [] fields)

def get? (key : Text) : Json → Option Json
  | obj fields => fields.lookup key
  | _ => none

theorem put_of_not_mem {key : Text} {value : Json} {fields : List (Text × Json)}
    (h : key ∉ fields.map Prod.fst) : put key value fields = fields ++ [(key, value)] := by
  induction fields with
  | nil => rfl
  | cons field rest ih =>
      simp only [List.map_cons, List.mem_cons, not_or] at h
      simp [put, Ne.symm h.1, ih h.2]

end Json

end HindleyMilner
