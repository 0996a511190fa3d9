import HindleyMilner.Expr.Basic
import HindleyMilner.Json.Basic
import HindleyMilner.Ty.Printer

/-!
Programs as values of the exchange format. A node is an object: its kind, its place if known, its
own fields, then its children. An annotated node has its type between the two.
-/

namespace HindleyMilner

/-- The kinds of node. -/
inductive Kind where
  | int | bool | str | ident | func | not | binary | cond | call | letIn
deriving DecidableEq, Repr

namespace Kind

def name : Kind → String
  | int => "int"
  | bool => "bool"
  | str => "string"
  | ident => "id"
  | func => "fun"
  | not => "not"
  | binary => "binop"
  | cond => "if"
  | call => "call"
  | letIn => "let"

def all : List Kind :=
  [int, bool, str, ident, func, not, binary, cond, call, letIn]

def ofName? (name : Text) : Option Kind :=
  all.find? fun kind => kind.name = name

end Kind

def Coordinate.toJson : Coordinate → Json
  | number value => .int value
  | flag value => .bool value

def Location.toJson (place : Location) : Json :=
  .arr [place.line.toJson, place.column.toJson]

namespace Expr

variable {ν : Type}

def kind : Expr ν → Kind
  | int .. => .int
  | bool .. => .bool
  | str .. => .str
  | ident .. => .ident
  | func .. => .func
  | not .. => .not
  | binary .. => .binary
  | cond .. => .cond
  | call .. => .call
  | letIn .. => .letIn

/-- Kind and place, which stand first. -/
def heading (kind : Kind) (place : Option Location) : List (Text × Json) :=
  ("node", .str kind.name) ::
    match place with
    | none => []
    | some place => [("location", place.toJson)]

/-- A node is an object: kind and place, its own fields, further ones, then its children. -/
def node (kind : Kind) (place : Option Location) (own extra children : List (Text × Json)) : Json :=
  .obj (heading kind place ++ own ++ extra ++ children)

/-- `place` finds the place of a node in its note, and `extra` the fields that stand before the
children. -/
def encode (place : ν → Option Location) (extra : ν → List (Text × Json)) : Expr ν → Json
  | int note value => node .int (place note) [("value", .int value)] (extra note) []
  | bool note value => node .bool (place note) [("value", .bool value)] (extra note) []
  | str note value => node .str (place note) [("value", .str value)] (extra note) []
  | ident note name => node .ident (place note) [("name", .str name)] (extra note) []
  | func note parameter body =>
      node .func (place note) [("parameter", .str parameter)] (extra note)
        [("body", body.encode place extra)]
  | not note operand =>
      node .not (place note) [] (extra note) [("operand", operand.encode place extra)]
  | binary note op left right =>
      node .binary (place note) [("operator", .str op.name)] (extra note)
        [("left", left.encode place extra), ("right", right.encode place extra)]
  | cond note test yes no =>
      node .cond (place note) [] (extra note)
        [("condition", test.encode place extra), ("then", yes.encode place extra),
          ("else", no.encode place extra)]
  | call note callee argument =>
      node .call (place note) [] (extra note)
        [("callee", callee.encode place extra), ("argument", argument.encode place extra)]
  | letIn note name recursive value body =>
      node .letIn (place note) [("name", .str name), ("recursive", .bool recursive)] (extra note)
        [("value", value.encode place extra), ("body", body.encode place extra)]

end Expr

def Program.toJson (e : Program) : Json :=
  e.encode id fun _ => []

def Annotated.toJson (e : Annotated) : Json :=
  e.encode Prod.fst fun note => [("type", .str note.2.text)]

end HindleyMilner
