import HindleyMilner.Expr.LoadError

/-!
Loading a program from a value of the exchange format or from text. Every field of an object is
read both as it is and as a node; which reading counts depends on the kind of the object, so an
unused field may hold anything.
-/

namespace HindleyMilner

/-- A field: its value, and what it is as a node. -/
structure Reading where
  value : Json
  node : Except LoadError Program

/-- An object whose kind and place are known. -/
structure Scope where
  kind : Kind
  place : Option Location
  fields : List (Text × Reading)

namespace Scope

def fail {α : Type} (scope : Scope) (cause : Malformed) : Except LoadError α :=
  .error (.malformed cause scope.place)

def field (scope : Scope) (key : Text) : Except LoadError Reading :=
  match scope.fields.lookup key with
  | some reading => .ok reading
  | none => scope.fail (.missingField scope.kind key)

def child (scope : Scope) (key : Text) : Except LoadError Program := do
  let reading ← scope.field key
  reading.node

def integer (scope : Scope) (key : Text) : Except LoadError Int := do
  match (← scope.field key).value with
  | .int value => return value
  | _ => scope.fail (.wrongField scope.kind key .integer)

def boolean (scope : Scope) (key : Text) : Except LoadError Bool := do
  match (← scope.field key).value with
  | .bool value => return value
  | _ => scope.fail (.wrongField scope.kind key .boolean)

def text (scope : Scope) (key : Text) : Except LoadError Text := do
  match (← scope.field key).value with
  | .str value => return value
  | _ => scope.fail (.wrongField scope.kind key .text)

/-- A flag that may be left out. -/
def flag (scope : Scope) (key : Text) : Except LoadError Bool :=
  if (scope.fields.lookup key).isSome then scope.boolean key else .ok false

def operator (scope : Scope) : Except LoadError Operator := do
  match (← scope.field "operator").value with
  | .str name =>
      match Operator.ofName? name with
      | some op => return op
      | none => scope.fail (.unknownOperator (.str name))
  | .arr items => .error (.compoundOperator (.arr items))
  | .obj fields => .error (.compoundOperator (.obj fields))
  | value => scope.fail (.unknownOperator value)

/-- The fields are looked up in the order in which they are written here. -/
def program (scope : Scope) : Except LoadError Program :=
  let place := scope.place
  match scope.kind with
  | .int => return .int place (← scope.integer "value")
  | .bool => return .bool place (← scope.boolean "value")
  | .str => return .str place (← scope.text "value")
  | .ident => return .ident place (← scope.text "name")
  | .func => do
      let parameter ← scope.text "parameter"
      let body ← scope.child "body"
      return .func place parameter body
  | .not => return .not place (← scope.child "operand")
  | .binary => do
      let op ← scope.operator
      let left ← scope.child "left"
      let right ← scope.child "right"
      return .binary place op left right
  | .cond => do
      let test ← scope.child "condition"
      let yes ← scope.child "then"
      let no ← scope.child "else"
      return .cond place test yes no
  | .call => do
      let callee ← scope.child "callee"
      let argument ← scope.child "argument"
      return .call place callee argument
  | .letIn => do
      let name ← scope.text "name"
      let recursive ← scope.flag "recursive"
      let value ← scope.child "value"
      let body ← scope.child "body"
      return .letIn place name recursive value body

end Scope

def Coordinate.ofJson? : Json → Option Coordinate
  | .int value => some (.number value)
  | .bool value => some (.flag value)
  | _ => none

/-- A place is a pair of a line and a column. -/
def Location.ofJson? (file : Option Text) : Json → Option Location
  | .arr [line, column] => do
      let line ← Coordinate.ofJson? line
      let column ← Coordinate.ofJson? column
      return { line, column, file }
  | _ => none

namespace Program

def kindOf (fields : List (Text × Reading)) : Except LoadError Kind :=
  match fields.lookup ("node" : Text) with
  | some ⟨.str name, _⟩ =>
      match Kind.ofName? name with
      | some kind => .ok kind
      | none => .error (.malformed (.unknownKind (.str name)) none)
  | some ⟨value, _⟩ => .error (.malformed (.unknownKind value) none)
  | none => .error (.malformed (.unknownKind .null) none)

def placeOf (file : Option Text) (fields : List (Text × Reading)) :
    Except LoadError (Option Location) :=
  match fields.lookup ("location" : Text) with
  | none | some ⟨.null, _⟩ => .ok none
  | some ⟨value, _⟩ =>
      match Location.ofJson? file value with
      | some place => .ok (some place)
      | none => .error (.malformed (.badLocation value) none)

/-- A node is looked at by kind, then place, then fields. -/
def ofReadings (file : Option Text) (fields : List (Text × Reading)) :
    Except LoadError Program := do
  let kind ← kindOf fields
  let place ← placeOf file fields
  Scope.program { kind, place, fields }

mutual

def ofJson (file : Option Text) : Json → Except LoadError Program
  | .obj fields => ofReadings file (readings file fields)
  | .null => .error (.malformed (.notObject .null) none)
  | .bool value => .error (.malformed (.notObject (.bool value)) none)
  | .int value => .error (.malformed (.notObject (.int value)) none)
  | .real value => .error (.malformed (.notObject (.real value)) none)
  | .str value => .error (.malformed (.notObject (.str value)) none)
  | .arr items => .error (.malformed (.notObject (.arr items)) none)

def readings (file : Option Text) : List (Text × Json) → List (Text × Reading)
  | [] => []
  | (key, value) :: fields => (key, ⟨value, ofJson file value⟩) :: readings file fields

end

/-- Line and column of a place in a text, both counted from one. Only a line feed ends a line. -/
def positionIn (text : Text) (offset : Nat) : Nat × Nat :=
  let before := text.take offset
  (before.count (.char '\n') + 1, (before.reverse.takeWhile (· ≠ .char '\n')).length + 1)

/-- Loads a program from its text. -/
def ofText (limits : Json.Limits) (file : Option Text) (text : Text) :
    Except LoadError Program :=
  match Json.read limits text with
  | .ok value => ofJson file value
  | .error (.flawed flaw offset) =>
      let (line, column) := positionIn text offset
      .error (.malformed (.invalidText flaw)
        (some { line := .number line, column := .number column, offset, file }))
  | .error .tooDeep => .error (.malformed (.tooDeep file) none)
  | .error (.longNumeral digits) => .error (.longNumeral digits limits.digits)

end Program

end HindleyMilner
