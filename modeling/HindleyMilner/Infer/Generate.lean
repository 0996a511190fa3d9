import HindleyMilner.Expr.Basic
import HindleyMilner.Infer.Trace

/-!
From a program to its equations. Every node gets a type, often a fresh placeholder, and the
equations of its parts stand before its own.

A `let` solves the equations of its value on the spot, so that the type of the value can be
generalized before the body is looked at. A recursive value is not generalized, and its name has
a type of its own inside the value.
-/

namespace HindleyMilner

structure Generated where
  tree : Annotated
  constraints : List Constraint

def Generated.type (g : Generated) : Ty :=
  g.tree.type

/-- The type of an operation, and what it asks of the types of its operands. -/
def Operator.typing (op : Operator) (place : Option Location) (left right : Ty) :
    Ty × List Constraint :=
  match op.category.operand? with
  | none => (.bool, [⟨left, right, place⟩])
  | some t => (t, [⟨left, t, place⟩, ⟨right, t, place⟩])

/-- What the value of a `let` sees: its own name only if it is recursive. -/
def letScope (env : Env) (recursive : Bool) (name : Text) : Infer Env :=
  if recursive then do
    let self ← Infer.fresh
    return env.extend name self
  else pure env

/-- The type of a bound name for the body of its `let`. -/
def letScheme (env : Env) (recursive : Bool) (s : Subst) (t : Ty) : Except Fault Ty := do
  let refined ← env.refine s
  let solved ← s.apply t
  return if recursive then solved else refined.generalize solved

def generate (env : Env) : Program → Infer Generated
  | .int place value => return ⟨.int (place, .int) value, []⟩
  | .bool place value => return ⟨.bool (place, .bool) value, []⟩
  | .str place value => return ⟨.str (place, .string) value, []⟩
  | .ident place name =>
      match env.get? name with
      | none => throw (.unbound name place)
      | some scheme => do
          let t ← Infer.instantiate scheme
          return ⟨.ident (place, t) name, []⟩
  | .func place parameter body => do
      let domain ← Infer.fresh
      let codomain ← Infer.fresh
      let body ← generate (env.extend parameter domain) body
      return ⟨.func (place, .arrow domain codomain) parameter body.tree,
        body.constraints ++ [⟨body.type, codomain, place⟩]⟩
  | .not place operand => do
      let operand ← generate env operand
      return ⟨.not (place, .bool) operand.tree,
        operand.constraints ++ [⟨operand.type, .bool, place⟩]⟩
  | .binary place op left right => do
      let left ← generate env left
      let right ← generate env right
      let (t, own) := op.typing place left.type right.type
      return ⟨.binary (place, t) op left.tree right.tree,
        left.constraints ++ right.constraints ++ own⟩
  | .cond place test yes no => do
      let test ← generate env test
      let yes ← generate env yes
      let no ← generate env no
      return ⟨.cond (place, yes.type) test.tree yes.tree no.tree,
        test.constraints ++ yes.constraints ++ no.constraints ++
          [⟨test.type, .bool, place⟩, ⟨yes.type, no.type, place⟩]⟩
  | .call place callee argument => do
      let callee ← generate env callee
      let argument ← generate env argument
      let result ← Infer.fresh
      return ⟨.call (place, result) callee.tree argument.tree,
        callee.constraints ++ argument.constraints ++
          [⟨callee.type, .arrow argument.type result, place⟩]⟩
  | .letIn place name recursive value body => do
      let scope ← letScope env recursive name
      let value ← generate scope value
      let s ← Infer.solve value.constraints
      let scheme ← Infer.lift (letScheme env recursive s value.type)
      Infer.note (.bound name scheme)
      let body ← generate (env.extend name scheme) body
      return ⟨.letIn (place, body.type) name recursive value.tree body.tree,
        value.constraints ++ body.constraints⟩

end HindleyMilner
