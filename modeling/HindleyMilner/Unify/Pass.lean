import HindleyMilner.Constraint

/-!
One pass of unification over a list of equations, from left to right. Each equation is dropped,
split into two smaller ones, turned into a rule that is pushed into all later equations, or
refused. The pass ends because a rule takes its name out of what is left, and the other steps
make the list smaller without new names.
-/

namespace HindleyMilner.Unify

inductive Step where
  | discard
  | split (first second : Constraint)
  | bind (name : String) (type : Ty)
  | refuse (fault : Fault)

/-- Solves `name = type`. A name inside its own type has no finite solution; bound names count
as inside. -/
def solveFor (name : String) (type : Ty) (origin : Option Location) : Step :=
  if type = .var name then .discard
  else if type.mentions name then .refuse (.infinite name type origin)
  else .bind name type

/-- Two base types agree only if they are equal. A quantified type agrees with a placeholder
only, not even with itself. -/
def step (c : Constraint) : Step :=
  match c.left, c.right with
  | .prim a, .prim b => if a = b then .discard else .refuse (.mismatch c.left c.right c.origin)
  | .arrow d₁ c₁, .arrow d₂ c₂ => .split ⟨d₁, d₂, c.origin⟩ ⟨c₁, c₂, c.origin⟩
  | .var x, t => solveFor x t c.origin
  | t, .var x => solveFor x t c.origin
  | l, r => .refuse (.mismatch l r c.origin)

/-- Every equation with `type` for `name`. -/
def substAll (name : String) (type : Ty) (cs : List Constraint) : List Constraint :=
  cs.map fun c => c.subst name type

def weight : List Constraint → Nat
  | [] => 0
  | c :: cs => c.size + weight cs

def occurrences (cs : List Constraint) : List String :=
  cs.flatMap Constraint.occurrences

/-- Number of different names. -/
def distinct (names : List String) : Nat :=
  names.eraseDups.length

theorem nodup_eraseDups (names : List String) : names.eraseDups.Nodup := by
  match names with
  | [] => exact List.nodup_nil
  | a :: rest =>
      rw [List.eraseDups_cons, List.nodup_cons]
      exact ⟨by simp [List.mem_eraseDups], nodup_eraseDups _⟩
termination_by names.length
decreasing_by exact Nat.lt_succ_of_le (List.length_filter_le _ _)

theorem distinct_le {l m : List String} (h : l ⊆ m) : distinct l ≤ distinct m :=
  (nodup_eraseDups l).length_le_of_subset fun _ hx =>
    List.mem_eraseDups.2 (h (List.mem_eraseDups.1 hx))

theorem distinct_lt {l m : List String} {x : String} (h : l ⊆ m) (hm : x ∈ m) (hl : x ∉ l) :
    distinct l < distinct m := by
  have nodup : (x :: l.eraseDups).Nodup :=
    List.nodup_cons.2 ⟨fun hx => hl (List.mem_eraseDups.1 hx), nodup_eraseDups l⟩
  refine nodup.length_le_of_subset fun y hy => List.mem_eraseDups.2 ?_
  rcases List.mem_cons.1 hy with rfl | hy
  · exact hm
  · exact h (List.mem_eraseDups.1 hy)

theorem solveFor_eq_bind {name x : String} {type t : Ty} {origin : Option Location}
    (h : solveFor name type origin = .bind x t) :
    x = name ∧ t = type ∧ x ∉ t.occurrences := by
  unfold solveFor at h
  split at h
  · simp at h
  · split at h
    · simp at h
    · rename_i hm
      simp only [Step.bind.injEq] at h
      obtain ⟨rfl, rfl⟩ := h
      exact ⟨rfl, rfl, fun hx => hm (Ty.mentions_of_mem_occurrences hx)⟩

theorem solveFor_ne_split {name : String} {type : Ty} {origin : Option Location}
    {a b : Constraint} : solveFor name type origin ≠ .split a b := by
  unfold solveFor
  split
  · simp
  · split <;> simp

/-- A rule solves one side of its equation for the other. -/
theorem step_eq_bind {c : Constraint} {x : String} {t : Ty} (h : step c = .bind x t) :
    x ∈ c.occurrences ∧ t.occurrences ⊆ c.occurrences ∧ x ∉ t.occurrences := by
  unfold step at h
  split at h
  · split at h <;> simp at h
  · simp at h
  · rename_i l r hl hr
    obtain ⟨rfl, rfl, hx⟩ := solveFor_eq_bind h
    refine ⟨?_, ?_, hx⟩ <;> simp_all [Constraint.occurrences, Ty.occurrences]
  · rename_i l r hl hr _
    obtain ⟨rfl, rfl, hx⟩ := solveFor_eq_bind h
    refine ⟨?_, ?_, hx⟩ <;> simp_all [Constraint.occurrences, Ty.occurrences]
  · simp at h

theorem step_eq_split {c a b : Constraint} (h : step c = .split a b) :
    ∃ d₁ c₁ d₂ c₂, c.left = .arrow d₁ c₁ ∧ c.right = .arrow d₂ c₂ ∧
      a = ⟨d₁, d₂, c.origin⟩ ∧ b = ⟨c₁, c₂, c.origin⟩ := by
  unfold step at h
  split at h
  · split at h <;> simp at h
  · rename_i d₁ c₁ d₂ c₂ hl hr
    simp only [Step.split.injEq] at h
    exact ⟨d₁, c₁, d₂, c₂, hl, hr, h.1.symm, h.2.symm⟩
  · exact absurd h solveFor_ne_split
  · exact absurd h solveFor_ne_split
  · simp at h

theorem size_pos (t : Ty) : 0 < t.size := by
  cases t <;> simp [Ty.size]

private theorem smaller {a b c d : Nat} (h₁ : a ≤ c) (h₂ : b < d) :
    Prod.Lex (· < ·) (· < ·) (a, b) (c, d) := by
  rcases Nat.lt_or_eq_of_le h₁ with h | rfl
  · exact .left _ _ h
  · exact .right _ h₂

/-- Dropping the first equation leaves fewer of them and no new names. -/
theorem drop_smaller (c : Constraint) (rest : List Constraint) :
    Prod.Lex (· < ·) (· < ·) (distinct (occurrences rest), weight rest)
      (distinct (occurrences (c :: rest)), weight (c :: rest)) := by
  refine smaller (distinct_le fun x hx => ?_) ?_
  · simp only [occurrences, List.flatMap_cons, List.mem_append]
    exact .inr hx
  · have := size_pos c.left
    simp only [weight, Constraint.size]
    omega

theorem split_smaller {c a b : Constraint} (rest : List Constraint) (h : step c = .split a b) :
    Prod.Lex (· < ·) (· < ·) (distinct (occurrences (a :: b :: rest)), weight (a :: b :: rest))
      (distinct (occurrences (c :: rest)), weight (c :: rest)) := by
  obtain ⟨d₁, c₁, d₂, c₂, hl, hr, rfl, rfl⟩ := step_eq_split h
  refine smaller (distinct_le fun x hx => ?_) ?_
  · simp only [occurrences, List.flatMap_cons, List.mem_append, Constraint.occurrences, hl, hr,
      Ty.occurrences] at hx ⊢
    grind
  · simp only [weight, Constraint.size, hl, hr, Ty.size]
    omega

theorem bind_smaller {c : Constraint} {x : String} {t : Ty} (rest : List Constraint)
    (h : step c = .bind x t) :
    distinct (occurrences (substAll x t rest)) < distinct (occurrences (c :: rest)) := by
  obtain ⟨hx, ht, hn⟩ := step_eq_bind h
  have from_rest : ∀ y ∈ occurrences (substAll x t rest),
      (y ∈ occurrences rest ∧ y ≠ x) ∨ y ∈ t.occurrences := by
    intro y hy
    simp only [occurrences, substAll, List.mem_flatMap, List.mem_map] at hy
    obtain ⟨_, ⟨c', hc', rfl⟩, hy⟩ := hy
    rcases Constraint.mem_occurrences_subst hy with ⟨hm, hne⟩ | hr
    · exact .inl ⟨List.mem_flatMap.2 ⟨c', hc', hm⟩, hne⟩
    · exact .inr hr
  refine distinct_lt (x := x) (fun y hy => ?_) ?_ ?_
  · simp only [occurrences, List.flatMap_cons, List.mem_append]
    rcases from_rest y hy with ⟨hm, _⟩ | hr
    · exact .inr hm
    · exact .inl (ht hr)
  · simp only [occurrences, List.flatMap_cons, List.mem_append]
    exact .inl hx
  · intro hy
    rcases from_rest x hy with ⟨_, hne⟩ | hr
    · exact hne rfl
    · exact hn hr

/-- The rules found, oldest first. Each has been applied to every equation after its own. -/
def pass (cs : List Constraint) : Except Fault (List Rule) :=
  match cs with
  | [] => .ok []
  | c :: rest =>
      match _ : step c with
      | .discard => pass rest
      | .split a b => pass (a :: b :: rest)
      | .refuse fault => .error fault
      | .bind x t =>
          match rest.findSome? (Constraint.obstacle x) with
          | some text => .error (.notAType text)
          | none => do
              let rules ← pass (substAll x t rest)
              return (x, t) :: rules
termination_by (distinct (occurrences cs), weight cs)
decreasing_by
  · exact drop_smaller c rest
  · exact split_smaller rest ‹_›
  · exact .left _ _ (bind_smaller rest ‹_›)

end HindleyMilner.Unify
