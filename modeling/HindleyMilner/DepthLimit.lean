/-!
A depth limit shared by blocks that overlap in any order. A block can only raise the limit, and
when the last one closes the limit is back where it was before the first one opened.
-/

namespace HindleyMilner

/-- No limit can be set above this. -/
def largestLimit : Int := 2147483647

/-- `blocks` says for every block ever opened whether it is still open. -/
structure DepthLimit where
  current : Int := 1000
  saved : Option Int := none
  active : Nat := 0
  blocks : List Bool := []
deriving DecidableEq, Repr

namespace DepthLimit

/-- The limit asked for is too large to be set. -/
inductive Overflow where
  | tooLarge (asked : Int)
deriving DecidableEq, Repr

def Overflow.message : Overflow → String
  | tooLarge _ => "Python int too large to convert to C int"

/-- Opens a block. A block whose limit cannot be set counts as active for good, though it is not
open. -/
def enter (limit : DepthLimit) (least : Int) : DepthLimit × Option Overflow :=
  let counted : DepthLimit :=
    { limit with
      saved := if limit.active = 0 then some limit.current else limit.saved
      active := limit.active + 1 }
  if largestLimit < least then
    ({ counted with blocks := limit.blocks ++ [false] }, some (.tooLarge least))
  else
    ({ counted with
       current := max limit.current least
       blocks := limit.blocks ++ [true] }, none)

/-- Closes a block. Closing a block that is not open does nothing. -/
def leave (limit : DepthLimit) (block : Nat) : DepthLimit :=
  if limit.blocks[block]? = some true then
    let closed : DepthLimit :=
      { limit with active := limit.active - 1, blocks := limit.blocks.set block false }
    match closed.active, closed.saved with
    | 0, some before => { closed with current := before, saved := none }
    | _, _ => closed
  else limit

end DepthLimit

end HindleyMilner
