import HindleyMilner.Subst

/-!
Environments: variables with their types, innermost first.
-/

namespace HindleyMilner

abbrev Env := List (Text × Ty)

namespace Env

def extend (env : Env) (name : Text) (type : Ty) : Env :=
  (name, type) :: env

/-- The innermost binding. -/
def get? (env : Env) (name : Text) : Option Ty :=
  env.lookup name

/-- Applies a substitution to every type, innermost first. -/
def refine (env : Env) (s : Subst) : Except Fault Env :=
  env.mapM fun binding => do
    let t ← s.apply binding.2
    return (binding.1, t)

/-- Placeholders free in some binding, in order of first appearance. -/
def free (env : Env) : List String :=
  (env.flatMap fun binding => binding.2.free).eraseDups

/-- Quantifies the placeholders of `t` that the environment leaves open. Without any, `t` stays
as it is. -/
def generalize (env : Env) (t : Ty) : Ty :=
  let outer := env.free
  match t.free.filter (· ∉ outer) with
  | [] => t
  | bound => .poly bound t

def constructorForm (env : Env) : String :=
  "TypeEnvironment(" ++ pairsForm env ++ ")"

end Env

end HindleyMilner
