import HindleyMilner.Expr.Encoding

/-!
Annotating a program by hand. Types come as a tree, and every node must have as many branches as
the expression it annotates has children.
-/

namespace HindleyMilner

inductive TypeTree where
  | node (type : Ty) (branches : List TypeTree)
deriving Inhabited

/-- A node with the wrong number of branches. -/
structure ArityError where
  kind : Kind
  expected : Nat
  actual : Nat
deriving DecidableEq, Repr

def Kind.title : Kind → String
  | int => "IntegerLiteral"
  | bool => "BooleanLiteral"
  | str => "StringLiteral"
  | ident => "Identifier"
  | func => "FunctionExpression"
  | not => "NotExpression"
  | binary => "BinaryExpression"
  | cond => "ConditionalExpression"
  | call => "CallExpression"
  | letIn => "LetExpression"

def ArityError.message (e : ArityError) : String :=
  e.kind.title ++ " has " ++ toString e.expected ++ " children, got " ++ toString e.actual ++
    " annotations"

namespace Program

/-- Puts annotated children under the root of `e`. -/
def assemble (e : Program) (type : Ty) (children : List Annotated) : Except ArityError Annotated :=
  match e, children with
  | .int place value, [] => .ok (.int (place, type) value)
  | .bool place value, [] => .ok (.bool (place, type) value)
  | .str place value, [] => .ok (.str (place, type) value)
  | .ident place name, [] => .ok (.ident (place, type) name)
  | .func place parameter _, [body] => .ok (.func (place, type) parameter body)
  | .not place _, [operand] => .ok (.not (place, type) operand)
  | .binary place op _ _, [left, right] => .ok (.binary (place, type) op left right)
  | .cond place _ _ _, [test, yes, no] => .ok (.cond (place, type) test yes no)
  | .call place _ _, [callee, argument] => .ok (.call (place, type) callee argument)
  | .letIn place name recursive _ _, [value, body] =>
      .ok (.letIn (place, type) name recursive value body)
  | e, children => .error ⟨e.kind, e.children.length, children.length⟩

mutual

/-- Annotates children before their parent, so a fault deep inside is found first. -/
def decorate (e : Program) : TypeTree → Except ArityError Annotated
  | .node type branches => do
      let children ← decorateAll e e.children branches
      e.assemble type children

/-- A branch without a child to annotate is tried on the parent itself. -/
def decorateAll (e : Program) (children : List Program) :
    List TypeTree → Except ArityError (List Annotated)
  | [] => .ok []
  | branch :: branches => do
      let first ← decorate (children.headD e) branch
      let rest ← decorateAll e children.tail branches
      return first :: rest

end

end Program

end HindleyMilner
