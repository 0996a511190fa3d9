import HindleyMilner.Unify.Pass

/-!
Solving equations in rounds. A round runs one pass, merges the rules it finds into the
substitution so far, and reduces every equation with the result. A round that finds nothing
ends the work.
-/

namespace HindleyMilner.Unify

structure Solution where
  subst : Subst
  rounds : Nat
deriving DecidableEq, Repr

/-- Merges rules, oldest first. -/
def merge (s : Subst) (rules : List Rule) : Except Fault Subst :=
  rules.foldlM (fun s rule => s.extend rule.1 rule.2) s

/-- At most `budget` rounds, after `done` earlier ones. -/
def roundsFrom (budget done : Nat) (s : Subst) (cs : List Constraint) : Except Fault Solution :=
  match budget with
  | 0 => .ok ⟨s, done⟩
  | budget + 1 => do
      let rules ← pass cs
      if rules.isEmpty then return ⟨s, done + 1⟩
      let merged ← merge s rules
      let reduced ← cs.mapM fun c => c.reduce merged
      roundsFrom budget (done + 1) merged reduced

/-- The second round of a solvable list already finds nothing, so the budget is never used up. -/
def solveFrom (s : Subst) (cs : List Constraint) : Except Fault Solution :=
  roundsFrom (cs.length + 2) 0 s cs

def solve (cs : List Constraint) : Except Fault Solution :=
  solveFrom [] cs

end HindleyMilner.Unify
