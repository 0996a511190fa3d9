import HindleyMilner.Expr.Basic
import HindleyMilner.Json.Writer

/-!
Source text of an expression.
-/

namespace HindleyMilner.Expr

variable {ν : Type}

/-- Literals and identifiers need no brackets as operands. -/
def isAtom : Expr ν → Bool
  | int .. | bool .. | str .. | ident .. => true
  | _ => false

/-- What may be called without brackets. -/
def isHead : Expr ν → Bool
  | ident .. | call .. => true
  | _ => false

def bracket (bare : Bool) (text : Text) : Text :=
  if bare then text else "(" ++ text ++ ")"

/-- There is no source text where a number is too long to be written. -/
def source : Expr ν → Except Text.LongNumeral Text
  | int _ value => Text.numeral value
  | bool _ value => return if value then "true" else "false"
  | str _ value => return Json.quote value
  | ident _ name => return name
  | func _ parameter body => do
      let body ← body.source
      return "fun " ++ parameter ++ " -> " ++ body
  | not _ operand => do
      let inner ← operand.source
      return "not " ++ bracket operand.isAtom inner
  | binary _ op left right => do
      let first ← left.source
      let second ← right.source
      return bracket left.isAtom first ++ " " ++ op.symbol ++ " " ++ bracket right.isAtom second
  | cond _ test yes no => do
      let test ← test.source
      let yes ← yes.source
      let no ← no.source
      return "if " ++ test ++ " then " ++ yes ++ " else " ++ no
  | call _ callee argument => do
      let first ← callee.source
      let second ← argument.source
      return bracket callee.isHead first ++ " " ++ bracket argument.isAtom second
  | letIn _ name recursive value body => do
      let keyword : Text := if recursive then "let rec " else "let "
      let value ← value.source
      let body ← body.source
      return keyword ++ name ++ " = " ++ value ++ " in " ++ body

end HindleyMilner.Expr
