import HindleyMilner.Infer.Generate

/-!
The type of a whole program: generate its equations in the empty environment, solve them, and
apply the solution to the type of the program, and to the type of every node if asked to.
-/

namespace HindleyMilner

structure Inference where
  type : Ty
  subst : Subst
  constraints : List Constraint
  tree : Option Annotated

/-- Applies a substitution to the type of every node. -/
def Annotated.resolve (e : Annotated) (s : Subst) : Except Fault Annotated :=
  e.mapM fun note => do
    let t ← s.apply note.2
    return (note.1, t)

namespace Program

def inferM (annotate : Bool) (e : Program) : Infer Inference := do
  let g ← generate [] e
  Infer.note (.generated g.constraints)
  let s ← Infer.solve g.constraints
  Infer.note (.allocated (← get).counter)
  Infer.note (.solved s)
  let tree ← if annotate then some <$> Infer.lift (g.tree.resolve s) else pure none
  let type ← Infer.lift (s.apply g.type)
  return { type, subst := s, constraints := g.constraints, tree }

/-- A run starts with a new supply and no notes. -/
def run (annotate : Bool) (e : Program) : EStateM.Result Fault Trace Inference :=
  (e.inferM annotate).run {}

/-- The type of a program. -/
def infer (e : Program) : Except Fault Ty :=
  match e.run false with
  | .ok result _ => .ok result.type
  | .error fault _ => .error fault

end Program

end HindleyMilner
