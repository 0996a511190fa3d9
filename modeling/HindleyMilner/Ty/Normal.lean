import HindleyMilner.Ty.Supply

/-!
Normal forms of types up to the names of placeholders. The body of a quantified type is visited
before its bound names, and bound and free placeholders share one renaming.
-/

namespace HindleyMilner

/-- The names that were met so far with their new names, and how many those are. -/
structure Renaming where
  table : List (String × String) := []
  counter : Nat := 0

/-- A name that was not met before gets the next name of the supply. -/
def Renaming.name (x : String) : StateM Renaming String := do
  let known ← get
  match known.table.lookup x with
  | some y => return y
  | none =>
      let y := Supply.name known.counter
      set { table := (x, y) :: known.table, counter := known.counter + 1 : Renaming }
      return y

namespace Ty

def renamed : Ty → StateM Renaming Ty
  | prim p => return prim p
  | var x => return var (← Renaming.name x)
  | arrow d c => do
      let d ← d.renamed
      let c ← c.renamed
      return arrow d c
  | poly bound b => do
      let b ← b.renamed
      let bound ← bound.mapM Renaming.name
      return poly bound b
  | foreign s => return foreign s

/-- Renames placeholders to the first names of the supply in order of first appearance. -/
def normalize (t : Ty) : Ty :=
  (t.renamed {}).1

def alphaEquiv (left right : Ty) : Bool :=
  left.normalize = right.normalize

end Ty

end HindleyMilner
