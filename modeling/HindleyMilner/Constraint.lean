import HindleyMilner.Subst

/-!
Equations between types, each with the place of the expression that asks for it.
-/

namespace HindleyMilner

structure Constraint where
  left : Ty
  right : Ty
  origin : Option Location := none
deriving DecidableEq, Repr

namespace Constraint

/-- The same equation, wherever it comes from. -/
def same (a b : Constraint) : Bool :=
  a.left = b.left ∧ a.right = b.right

/-- Both sides with `replacement` for `name`. -/
def subst (c : Constraint) (name : String) (replacement : Ty) : Constraint :=
  { c with left := c.left.subst name replacement, right := c.right.subst name replacement }

def obstacle (name : String) (c : Constraint) : Option String :=
  c.left.obstacle name <|> c.right.obstacle name

def replace (c : Constraint) (name : String) (replacement : Ty) : Except Fault Constraint :=
  match c.obstacle name with
  | some text => .error (.notAType text)
  | none => .ok (c.subst name replacement)

def apply (c : Constraint) (s : Subst) : Except Fault Constraint := do
  let left ← s.apply c.left
  let right ← s.apply c.right
  return { c with left, right }

/-- Applies the rules from the newest to the oldest. -/
def reduce (c : Constraint) (s : Subst) : Except Fault Constraint :=
  s.foldlM (fun c rule => c.replace rule.1 rule.2) c

def text (c : Constraint) : String :=
  c.left.text ++ " = " ++ c.right.text

def size (c : Constraint) : Nat :=
  c.left.size + c.right.size

def occurrences (c : Constraint) : List String :=
  c.left.occurrences ++ c.right.occurrences

theorem mem_occurrences_subst {x name : String} {r : Ty} {c : Constraint}
    (h : x ∈ (c.subst name r).occurrences) :
    (x ∈ c.occurrences ∧ x ≠ name) ∨ x ∈ r.occurrences := by
  simp only [occurrences, subst, List.mem_append] at h
  rcases h with h | h
  · rcases Ty.mem_occurrences_subst h with ⟨hm, hn⟩ | hr
    · exact .inl ⟨by simp [occurrences, hm], hn⟩
    · exact .inr hr
  · rcases Ty.mem_occurrences_subst h with ⟨hm, hn⟩ | hr
    · exact .inl ⟨by simp [occurrences, hm], hn⟩
    · exact .inr hr

end Constraint

end HindleyMilner
