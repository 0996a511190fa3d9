import HindleyMilner.Expr.Source
import HindleyMilner.Ty.Printer

/-!
Listings of annotated programs: one line per node with its source text and its type, indented by
depth.
-/

namespace HindleyMilner

structure ListingStyle where
  indent : Int := 2
  width : Int := 60
deriving DecidableEq, Repr

namespace ListingStyle

/-- The first `count` characters; a negative count leaves out that many at the end. -/
def front (count : Int) (text : Text) : Text :=
  if count < 0 then text.take (text.length - count.natAbs) else text.take count.toNat

/-- Cuts a text that is longer than the width, so that three dots bring it back to the width. -/
def label (style : ListingStyle) (text : Text) : Text :=
  if style.width < text.length then front (style.width - 3) text ++ "..." else text

def line (style : ListingStyle) (depth : Nat) (text : Text) (type : Ty) : Text :=
  Text.spaces (style.indent * depth).toNat ++ style.label text ++ " : " ++ type.text

end ListingStyle

namespace Annotated

def lines (style : ListingStyle) (depth : Nat) (e : Annotated) :
    Except Text.LongNumeral (List Text) := do
  let own := style.line depth (← e.source) e.note.2
  match e with
  | .int .. | .bool .. | .str .. | .ident .. => return [own]
  | .func _ _ body => do
      let body ← lines style (depth + 1) body
      return own :: body
  | .not _ operand => do
      let operand ← lines style (depth + 1) operand
      return own :: operand
  | .binary _ _ left right => do
      let left ← lines style (depth + 1) left
      let right ← lines style (depth + 1) right
      return own :: (left ++ right)
  | .cond _ test yes no => do
      let test ← lines style (depth + 1) test
      let yes ← lines style (depth + 1) yes
      let no ← lines style (depth + 1) no
      return own :: (test ++ yes ++ no)
  | .call _ callee argument => do
      let callee ← lines style (depth + 1) callee
      let argument ← lines style (depth + 1) argument
      return own :: (callee ++ argument)
  | .letIn _ _ _ value body => do
      let value ← lines style (depth + 1) value
      let body ← lines style (depth + 1) body
      return own :: (value ++ body)

def listing (style : ListingStyle) (e : Annotated) : Except Text.LongNumeral Text := do
  let lines ← e.lines style 0
  return List.intercalate "\n" lines

end Annotated

end HindleyMilner
