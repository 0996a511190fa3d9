import HindleyMilner.Json.Basic
import HindleyMilner.Text.Quoted

/-!
How a value is shown inside a message, and what its kind is called there.
-/

namespace HindleyMilner.Json

def kindName : Json → String
  | null => "NoneType"
  | bool _ => "bool"
  | int _ => "int"
  | real _ => "float"
  | str _ => "str"
  | arr _ => "list"
  | obj _ => "dict"

mutual

def shown : Json → String
  | null => "None"
  | bool value => if value then "True" else "False"
  | int value => toString value
  | real value => value.text
  | str value => Text.quoted value
  | arr items => "[" ++ ", ".intercalate (shownItems items) ++ "]"
  | obj fields => "\x7b" ++ ", ".intercalate (shownFields fields) ++ "\x7d"

def shownItems : List Json → List String
  | [] => []
  | item :: items => shown item :: shownItems items

def shownFields : List (Text × Json) → List String
  | [] => []
  | (key, value) :: fields => (Text.quoted key ++ ": " ++ shown value) :: shownFields fields

end

end HindleyMilner.Json
