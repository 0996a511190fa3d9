import HindleyMilner.Expr.Operator
import HindleyMilner.Location

/-!
Expressions. Every node carries a note: a program notes where each node stands, an annotated
program also notes a type. Both have the same shape, and forgetting types is mapping the notes.
-/

namespace HindleyMilner

inductive Expr (ν : Type) where
  | int (note : ν) (value : Int)
  | bool (note : ν) (value : Bool)
  | str (note : ν) (value : Text)
  | ident (note : ν) (name : Text)
  | func (note : ν) (parameter : Text) (body : Expr ν)
  | not (note : ν) (operand : Expr ν)
  | binary (note : ν) (op : Operator) (left right : Expr ν)
  | cond (note : ν) (test yes no : Expr ν)
  | call (note : ν) (callee argument : Expr ν)
  | letIn (note : ν) (name : Text) (recursive : Bool) (value body : Expr ν)
deriving DecidableEq, Repr

/-- A program notes the place of each node, if it is known. -/
abbrev Program := Expr (Option Location)

/-- An annotated program notes the place and the type of each node. -/
abbrev Annotated := Expr (Option Location × Ty)

namespace Expr

variable {ν μ : Type}

def note : Expr ν → ν
  | int note _ | bool note _ | str note _ | ident note _ => note
  | func note _ _ | not note _ | binary note _ _ _ | cond note _ _ _ => note
  | call note _ _ | letIn note _ _ _ _ => note

def children : Expr ν → List (Expr ν)
  | int .. | bool .. | str .. | ident .. => []
  | func _ _ body => [body]
  | not _ operand => [operand]
  | binary _ _ left right => [left, right]
  | cond _ test yes no => [test, yes, no]
  | call _ callee argument => [callee, argument]
  | letIn _ _ _ value body => [value, body]

def map (f : ν → μ) : Expr ν → Expr μ
  | int note value => int (f note) value
  | bool note value => bool (f note) value
  | str note value => str (f note) value
  | ident note name => ident (f note) name
  | func note parameter body => func (f note) parameter (body.map f)
  | not note operand => not (f note) (operand.map f)
  | binary note op left right => binary (f note) op (left.map f) (right.map f)
  | cond note test yes no => cond (f note) (test.map f) (yes.map f) (no.map f)
  | call note callee argument => call (f note) (callee.map f) (argument.map f)
  | letIn note name recursive value body => letIn (f note) name recursive (value.map f) (body.map f)

/-- Changes the notes, each node before its children and children from left to right. -/
def mapM {m : Type → Type} [Monad m] (f : ν → m μ) : Expr ν → m (Expr μ)
  | int note value => do return int (← f note) value
  | bool note value => do return bool (← f note) value
  | str note value => do return str (← f note) value
  | ident note name => do return ident (← f note) name
  | func note parameter body => do
      let note ← f note
      let body ← body.mapM f
      return func note parameter body
  | not note operand => do
      let note ← f note
      let operand ← operand.mapM f
      return not note operand
  | binary note op left right => do
      let note ← f note
      let left ← left.mapM f
      let right ← right.mapM f
      return binary note op left right
  | cond note test yes no => do
      let note ← f note
      let test ← test.mapM f
      let yes ← yes.mapM f
      let no ← no.mapM f
      return cond note test yes no
  | call note callee argument => do
      let note ← f note
      let callee ← callee.mapM f
      let argument ← argument.mapM f
      return call note callee argument
  | letIn note name recursive value body => do
      let note ← f note
      let value ← value.mapM f
      let body ← body.mapM f
      return letIn note name recursive value body

/-- The notes, each node before its children. -/
def notes : Expr ν → List ν
  | int note _ | bool note _ | str note _ | ident note _ => [note]
  | func note _ body => note :: body.notes
  | not note operand => note :: operand.notes
  | binary note _ left right => note :: (left.notes ++ right.notes)
  | cond note test yes no => note :: (test.notes ++ yes.notes ++ no.notes)
  | call note callee argument => note :: (callee.notes ++ argument.notes)
  | letIn note _ _ value body => note :: (value.notes ++ body.notes)

/-- The names that are used or bound. -/
def names : Expr ν → List Text
  | int .. | bool .. | str .. => []
  | ident _ name => [name]
  | func _ parameter body => parameter :: body.names
  | not _ operand => operand.names
  | binary _ _ left right => left.names ++ right.names
  | cond _ test yes no => test.names ++ (yes.names ++ no.names)
  | call _ callee argument => callee.names ++ argument.names
  | letIn _ name _ value body => name :: (value.names ++ body.names)

/-- The texts of its literals. -/
def strings : Expr ν → List Text
  | str _ value => [value]
  | int .. | bool .. | ident .. => []
  | func _ _ body => body.strings
  | not _ operand => operand.strings
  | binary _ _ left right => left.strings ++ right.strings
  | cond _ test yes no => test.strings ++ (yes.strings ++ no.strings)
  | call _ callee argument => callee.strings ++ argument.strings
  | letIn _ _ _ value body => value.strings ++ body.strings

/-- The numbers of its literals. -/
def numerals : Expr ν → List Int
  | int _ value => [value]
  | bool .. | str .. | ident .. => []
  | func _ _ body => body.numerals
  | not _ operand => operand.numerals
  | binary _ _ left right => left.numerals ++ right.numerals
  | cond _ test yes no => test.numerals ++ (yes.numerals ++ no.numerals)
  | call _ callee argument => callee.numerals ++ argument.numerals
  | letIn _ _ _ value body => value.numerals ++ body.numerals

theorem parts_of_mem_children {e child : Expr ν} (h : child ∈ e.children) :
    child.names ⊆ e.names ∧ child.strings ⊆ e.strings ∧ child.numerals ⊆ e.numerals ∧
      child.notes ⊆ e.notes := by
  cases e <;> grind [children, names, strings, numerals, notes]

theorem notes_map (f : ν → μ) (e : Expr ν) : (e.map f).notes = e.notes.map f := by
  induction e <;> simp_all [map, notes]

end Expr

namespace Annotated

def type (e : Annotated) : Ty :=
  e.note.2

/-- The program without its types. -/
def erase (e : Annotated) : Program :=
  e.map Prod.fst

/-- The types, each node before its children. -/
def types (e : Annotated) : List Ty :=
  e.notes.map Prod.snd

theorem type_mem_types (e : Annotated) : e.type ∈ e.types := by
  apply List.mem_map_of_mem
  cases e <;> simp [Expr.note, Expr.notes]

end Annotated

end HindleyMilner
