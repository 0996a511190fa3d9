import HindleyMilner.Text.Basic
import HindleyMilner.Ty.Basic

/-!
Binary operators, their names in an encoded program, and their symbols in source text.
-/

namespace HindleyMilner

inductive Operator where
  | add | sub | mult | div
  | concat
  | greater | less | greaterEqual | lessEqual | equal | notEqual
  | and | or
deriving DecidableEq, Repr

namespace Operator

inductive Category where
  | arithmetic
  | concatenation
  | comparison
  | logical
deriving DecidableEq, Repr

def category : Operator → Category
  | add | sub | mult | div => .arithmetic
  | concat => .concatenation
  | greater | less | greaterEqual | lessEqual | equal | notEqual => .comparison
  | and | or => .logical

def name : Operator → String
  | add => "add"
  | sub => "sub"
  | mult => "mult"
  | div => "div"
  | concat => "concat"
  | greater => "greater"
  | less => "less"
  | greaterEqual => "greater_equal"
  | lessEqual => "less_equal"
  | equal => "equal"
  | notEqual => "not_equal"
  | and => "and"
  | or => "or"

def symbol : Operator → String
  | add => "+"
  | sub => "-"
  | mult => "*"
  | div => "/"
  | concat => "^"
  | greater => ">"
  | less => "<"
  | greaterEqual => ">="
  | lessEqual => "<="
  | equal => "="
  | notEqual => "<>"
  | and => "&&"
  | or => "||"

def all : List Operator :=
  [add, sub, mult, div, concat, greater, less, greaterEqual, lessEqual, equal, notEqual, and, or]

def ofName? (name : Text) : Option Operator :=
  all.find? fun op => op.name = name

/-- The type of both operands and of the result. A comparison has none: its operands only have
to agree with each other. -/
def Category.operand? : Category → Option Ty
  | arithmetic => some .int
  | concatenation => some .string
  | logical => some .bool
  | comparison => none

end Operator

end HindleyMilner
