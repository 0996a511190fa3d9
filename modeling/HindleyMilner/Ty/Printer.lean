import HindleyMilner.Text.Quoted
import HindleyMilner.Ty.Basic

/-!
The text of a type as a reader sees it, and its constructor form, which spells out every node.
-/

namespace HindleyMilner.Ty

def varText (name : String) : String :=
  "'" ++ name

/-- Arrows group to the right, so these need brackets on the left of one. -/
def isCompound : Ty → Bool
  | arrow .. | poly .. => true
  | prim _ | var _ | foreign _ => false

def text : Ty → String
  | prim name => name
  | var name => varText name
  | arrow d c => (if d.isCompound then "(" ++ d.text ++ ")" else d.text) ++ " -> " ++ c.text
  | poly bound b => "forall " ++ " ".intercalate (bound.map varText) ++ ". " ++ b.text
  | foreign s => s

private def tuple : List String → String
  | [] => "()"
  | [name] => "(" ++ Text.quoted name ++ ",)"
  | names => "(" ++ ", ".intercalate (names.map fun (name : String) => Text.quoted name) ++ ")"

def constructorForm : Ty → String
  | prim name => "PrimitiveType(name=" ++ Text.quoted name ++ ")"
  | var name => "TypeVariable(name=" ++ Text.quoted name ++ ")"
  | arrow d c =>
      "FunctionType(domain=" ++ d.constructorForm ++ ", codomain=" ++ c.constructorForm ++ ")"
  | poly bound b => "PolymorphicType(bound=" ++ tuple bound ++ ", body=" ++ b.constructorForm ++ ")"
  | foreign s => Text.quoted s

end HindleyMilner.Ty
