import HindleyMilner.Fault

/-!
Substitutions: rules from placeholder names to types, newest first. Applying one goes from the
oldest rule to the newest, so what an early rule puts in can be refined by a later one.
-/

namespace HindleyMilner

/-- Puts `replacement` for `name`, unless a value that is not a type stands in the way. -/
def Ty.replace (t : Ty) (name : String) (replacement : Ty) : Except Fault Ty :=
  match t.obstacle name with
  | some text => .error (.notAType text)
  | none => .ok (t.subst name replacement)

abbrev Rule := String × Ty

abbrev Subst := List Rule

namespace Subst

def apply (s : Subst) (t : Ty) : Except Fault Ty :=
  s.foldrM (fun rule t => t.replace rule.1 rule.2) t

/-- First `second`, then `first`. -/
def compose (first second : Subst) : Subst :=
  first ++ second

/-- Pushes the new rule into every right-hand side, then puts it in front. -/
def extend (s : Subst) (name : String) (replacement : Ty) : Except Fault Subst := do
  let refined ← s.mapM fun rule => do
    let t ← rule.2.replace name replacement
    return (rule.1, t)
  return (name, replacement) :: refined

def ruleText (rule : Rule) : String :=
  Ty.varText rule.1 ++ " := " ++ rule.2.text

def text (s : Subst) : String :=
  "\x7b" ++ ", ".intercalate (s.map ruleText) ++ "\x7d"

end Subst

/-- Names paired with types, spelled out node by node. -/
def pairsForm (pairs : List (Text × Ty)) : String :=
  "[" ++ ", ".intercalate (pairs.map fun pair =>
    "(" ++ Text.quoted pair.1 ++ ", " ++ pair.2.constructorForm ++ ")") ++ "]"

def Subst.constructorForm (s : Subst) : String :=
  "Substitution(" ++ pairsForm (s.map fun rule => (rule.1, rule.2)) ++ ")"

end HindleyMilner
