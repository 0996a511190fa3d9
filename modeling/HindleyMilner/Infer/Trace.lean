import HindleyMilner.Env
import HindleyMilner.Ty.Supply
import HindleyMilner.Unify.Rounds

/-!
Inference as a computation that takes fresh names from a supply and notes what it does. Names
taken before a failure stay taken, and so do the notes.
-/

namespace HindleyMilner

/-- Steps worth a note. -/
inductive Event where
  | bound (name : Text) (scheme : Ty)
  | settled (rounds : Nat)
  | generated (constraints : List Constraint)
  | allocated (count : Nat)
  | solved (s : Subst)
deriving DecidableEq, Repr

namespace Event

/-- The part of the program that speaks. -/
def source : Event → String
  | bound .. => "mlinfer.inference.constraints"
  | settled _ => "mlinfer.inference.unification"
  | generated _ | allocated _ | solved _ => "mlinfer.inference.inferencer"

def text : Event → Text
  | bound name scheme => "let " ++ name ++ " : " ++ scheme.text
  | settled rounds => "unification settled after " ++ toString rounds ++ " round(s)"
  | generated constraints =>
      "generated " ++ toString constraints.length ++ " constraint(s):\n" ++
        "\n".intercalate (constraints.map Constraint.text)
  | allocated count => "allocated " ++ toString count ++ " placeholder(s)"
  | solved s => "substitution: " ++ s.text

end Event

/-- How many names have been taken, and the notes in order. -/
structure Trace where
  counter : Nat := 0
  events : Array Event := #[]
deriving Repr

abbrev Infer := EStateM Fault Trace

namespace Infer

def fresh : Infer Ty := do
  let trace ← get
  set { trace with counter := trace.counter + 1 }
  return Supply.placeholder trace.counter

def note (event : Event) : Infer Unit :=
  modify fun trace => { trace with events := trace.events.push event }

def lift {α : Type} : Except Fault α → Infer α
  | .ok value => pure value
  | .error fault => throw fault

/-- Puts a fresh placeholder for each quantified name, one after the other: a fresh name that is
also a later quantified name is replaced again. -/
def instantiate : Ty → Infer Ty
  | .poly bound body =>
      bound.foldlM (fun t name => do
        let placeholder ← fresh
        lift (t.replace name placeholder)) body
  | t => pure t

def solve (cs : List Constraint) : Infer Subst := do
  let solution ← lift (Unify.solve cs)
  note (.settled solution.rounds)
  return solution.subst

end Infer

end HindleyMilner
