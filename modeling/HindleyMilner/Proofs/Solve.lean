import HindleyMilner.Unify.Rounds
import HindleyMilner.Proofs.Pass

/-!
Solving equations without quantifiers gives a most general solution. Merging the rules of a pass
brings them into solved form, the reduced equations have equal sides, and so the second round finds
nothing: the answer is decided by the first pass. The solution of a list is then known by what it
does for assignments: an assignment solves the equations exactly if it refines the solution.
-/

namespace HindleyMilner.Unify

theorem merge_triangular {s : Subst} (solved : s.Solved) {rules : List Rule}
    (h : Triangular rules)
    (apart : ∀ rule ∈ rules, rule.1 ∉ s.names ∧ ∀ y ∈ s.names, y ∉ rule.2.occurrences) :
    ∃ s', merge s rules = .ok s' ∧ s'.Solved ∧
      s'.names = (rules.map Prod.fst).reverse ++ s.names ∧
      ∀ y, s'.value y = (s.value y).assign (outcome rules) := by
  induction rules generalizing s with
  | nil =>
      refine ⟨s, rfl, solved, by simp, fun y => ?_⟩
      rw [outcome, Ty.assign_var]
  | cons rule rules ih =>
      obtain ⟨x, t⟩ := rule
      obtain ⟨mono, acyclic, later, triangular⟩ := h
      obtain ⟨new, final⟩ := apart (x, t) (by simp)
      obtain ⟨first, extends_, solvedFirst, names, values⟩ :=
        solved.extend mono new acyclic final
      have apartRest : ∀ rule ∈ rules,
          rule.1 ∉ first.names ∧ ∀ y ∈ first.names, y ∉ rule.2.occurrences := by
        intro rule hr
        obtain ⟨distinct, absent⟩ := later rule hr
        obtain ⟨outside, unmentioned⟩ := apart rule (by simp [hr])
        rw [names]
        refine ⟨by simp [distinct, outside], fun y hy => ?_⟩
        cases List.mem_cons.1 hy with
        | inl same => exact same ▸ absent
        | inr named => exact unmentioned y named
      obtain ⟨s', merges, solved', names', values'⟩ := ih solvedFirst triangular apartRest
      refine ⟨s', ?_, solved', by simp [names', names], fun y => ?_⟩
      · rw [merge, List.foldlM_cons]
        exact bind_eq_ok.2 ⟨first, extends_, merges⟩
      · rw [values', values, assign_outcome_cons (solved.value_mono y)]

theorem outcome_unifies {cs : List Constraint} {rules : List Rule} (mono : ∀ c ∈ cs, c.Mono)
    (h : pass cs = .ok rules) : Unifies (outcome rules) cs :=
  (pass_solutions mono h _).2 (outcome_solves (pass_triangular mono h))

theorem solveFrom_of_pass_error {cs : List Constraint} {fault : Fault} (s : Subst)
    (h : pass cs = .error fault) : solveFrom s cs = .error fault := by
  rw [solveFrom, roundsFrom, h]
  rfl

theorem solve_of_pass_error {cs : List Constraint} {fault : Fault}
    (h : pass cs = .error fault) : solve cs = .error fault :=
  solveFrom_of_pass_error [] h

/-- The first pass decides. A pass that finds rules is followed by one that finds none. -/
theorem solve_of_pass_ok {cs : List Constraint} {rules : List Rule} (mono : ∀ c ∈ cs, c.Mono)
    (h : pass cs = .ok rules) :
    ∃ s : Subst, solve cs = .ok ⟨s, if rules.isEmpty then 1 else 2⟩ ∧ s.Solved ∧
      s.names = (rules.map Prod.fst).reverse ∧ s.value = outcome rules := by
  have triangular := pass_triangular mono h
  obtain ⟨s, merges, solved, names, values⟩ :=
    merge_triangular .nil triangular (by simp [Subst.names])
  have value : s.value = outcome rules := by
    funext y
    rw [values y, Subst.value_nil, Ty.assign]
  refine ⟨s, ?_, solved, by simpa [Subst.names] using names, value⟩
  have reduces : cs.mapM (fun c => c.reduce s) = .ok (cs.map fun c =>
      { c with left := c.left.assign s.value, right := c.right.assign s.value }) :=
    mapM_eq_ok fun c hc => solved.reduce (mono c hc)
  have settled : pass (cs.map fun c =>
      { c with left := c.left.assign s.value, right := c.right.assign s.value }) = .ok [] := by
    apply pass_of_equal
    · intro c hc
      obtain ⟨old, ho, rfl⟩ := List.mem_map.1 hc
      exact ⟨(mono old ho).1.assign fun y _ => solved.value_mono y,
        (mono old ho).2.assign fun y _ => solved.value_mono y⟩
    · intro c hc
      obtain ⟨old, ho, rfl⟩ := List.mem_map.1 hc
      rw [value]
      exact outcome_unifies mono h old ho
  cases rules with
  | nil =>
      have empty : s = [] := by
        cases merges
        rfl
      rw [solve, solveFrom, roundsFrom, h, empty]
      rfl
  | cons rule rules =>
      have second : roundsFrom (cs.length + 1) 1 s (cs.map fun c =>
          { c with left := c.left.assign s.value, right := c.right.assign s.value }) =
          .ok ⟨s, 2⟩ := by
        rw [roundsFrom, settled]
        rfl
      rw [solve, solveFrom, roundsFrom, h]
      refine bind_eq_ok.2 ⟨rule :: rules, rfl, ?_⟩
      simp only [List.isEmpty_cons, Bool.false_eq_true, ↓reduceIte]
      exact bind_eq_ok.2 ⟨s, merges, bind_eq_ok.2 ⟨_, reduces, second⟩⟩

theorem outcome_support {rules : List Rule} {names : List String} (h : Triangular rules)
    (inside : ∀ rule ∈ rules, rule.2.occurrences ⊆ names) (x y : String)
    (hy : y ∈ (outcome rules x).occurrences) : y = x ∨ y ∈ names := by
  induction rules generalizing x with
  | nil => exact .inl (by simpa [outcome, Ty.occurrences] using hy)
  | cons rule rules ih =>
      have rest := ih h.2.2.2 fun other ho => inside other (by simp [ho])
      by_cases hx : x = rule.1
      · rw [hx, outcome, Function.update_self, Ty.mem_occurrences_assign h.1] at hy
        obtain ⟨z, hz, hy⟩ := hy
        have member : z ∈ names := inside rule (by simp) hz
        cases rest z hy with
        | inl same => exact .inr (same ▸ member)
        | inr named => exact .inr named
      · rw [outcome, Function.update_of_ne hx] at hy
        exact rest x hy

/-- A solved form over the names of the equations that exactly their solutions refine. -/
structure MostGeneral (s : Subst) (cs : List Constraint) : Prop where
  solved : s.Solved
  unifies_iff : ∀ θ : Assignment, Unifies θ cs ↔ ∀ x, (s.value x).assign θ = θ x
  names : s.names ⊆ occurrences cs
  support : ∀ x y, y ∈ (s.value x).occurrences → y = x ∨ y ∈ occurrences cs

theorem mostGeneral_of_ok {cs : List Constraint} {solution : Solution}
    (mono : ∀ c ∈ cs, c.Mono) (h : solve cs = .ok solution) :
    MostGeneral solution.subst cs := by
  cases found : pass cs with
  | error fault =>
      rw [solve_of_pass_error found] at h
      cases h
  | ok rules =>
      obtain ⟨s, solves, solved, names, value⟩ := solve_of_pass_ok mono found
      rw [solves] at h
      cases h
      have triangular := pass_triangular mono found
      have support := pass_support found
      refine ⟨solved, fun θ => ⟨fun unifies x => ?_, fun absorbs => ?_⟩, ?_, ?_⟩
      · rw [value]
        exact outcome_absorbed triangular ((pass_solutions mono found θ).1 unifies) x
      · intro c hc
        have same : ∀ t : Ty, t.Mono → (t.assign s.value).assign θ = t.assign θ := by
          intro t ht
          rw [Ty.assign_assign ht]
          exact Ty.assign_congr fun x _ => absorbs x
        rw [← same c.left (mono c hc).1, ← same c.right (mono c hc).2, value,
          outcome_unifies mono found c hc]
      · intro x hx
        rw [names, List.mem_reverse] at hx
        obtain ⟨rule, hr, rfl⟩ := List.mem_map.1 hx
        exact (support rule hr).1
      · rw [value]
        exact outcome_support triangular fun rule hr => (support rule hr).2

theorem fails_of_error {cs : List Constraint} {fault : Fault} (mono : ∀ c ∈ cs, c.Mono)
    (h : solve cs = .error fault) : fault.Unsolvable ∧ ∀ θ : Assignment, ¬ Unifies θ cs := by
  cases found : pass cs with
  | error other =>
      rw [solve_of_pass_error found] at h
      cases h
      exact pass_fails mono found
  | ok rules =>
      obtain ⟨s, solves, -⟩ := solve_of_pass_ok mono found
      rw [solves] at h
      cases h

theorem solve_of_unifies {cs : List Constraint} (mono : ∀ c ∈ cs, c.Mono) {θ : Assignment}
    (h : Unifies θ cs) : ∃ solution, solve cs = .ok solution := by
  cases result : solve cs with
  | error fault => exact absurd h ((fails_of_error mono result).2 θ)
  | ok solution => exact ⟨solution, rfl⟩

namespace MostGeneral

variable {s : Subst} {cs : List Constraint} (general : MostGeneral s cs)

include general

theorem unifies : Unifies s.value cs :=
  (general.unifies_iff s.value).2 general.solved.value_value

theorem unifies_assign (θ : Assignment) : Unifies (fun x => (s.value x).assign θ) cs := by
  refine (general.unifies_iff _).2 fun x => ?_
  rw [← Ty.assign_assign (general.solved.value_mono x), general.solved.value_value]

theorem assign_value {θ : Assignment} (h : Unifies θ cs) {t : Ty} (mono : t.Mono) :
    (t.assign s.value).assign θ = t.assign θ := by
  rw [Ty.assign_assign mono]
  exact Ty.assign_congr fun x _ => (general.unifies_iff θ).1 h x

theorem rule_support {rule : Rule} (hr : rule ∈ s) :
    rule.1 ∈ occurrences cs ∧ rule.2.occurrences ⊆ occurrences cs := by
  have named : rule.1 ∈ occurrences cs := general.names (List.mem_map_of_mem hr)
  refine ⟨named, fun y hy => ?_⟩
  rw [← general.solved.value_of_mem hr] at hy
  cases general.support rule.1 y hy with
  | inl same => exact same ▸ named
  | inr inside => exact inside

end MostGeneral

def Solves (s : Subst) (cs : List Constraint) : Prop :=
  ∀ c ∈ cs, ∃ u, s.apply c.left = .ok u ∧ s.apply c.right = .ok u

theorem Solves.unifies {s : Subst} {cs : List Constraint} (mono : ∀ c ∈ cs, c.Mono)
    (h : Solves s cs) : Unifies s.action cs := by
  intro c hc
  obtain ⟨u, left, right⟩ := h c hc
  rw [← Subst.eq_assign_action (mono c hc).1 left, ← Subst.eq_assign_action (mono c hc).2 right]

theorem MostGeneral.solves {s : Subst} {cs : List Constraint} (general : MostGeneral s cs)
    (mono : ∀ c ∈ cs, c.Mono) : Solves s cs := by
  intro c hc
  refine ⟨c.left.assign s.value, general.solved.apply (mono c hc).1, ?_⟩
  rw [general.solved.apply (mono c hc).2, general.unifies c hc]

/-- Solving answers with a most general solution, and fails exactly if there is no solution. -/
theorem solve_computes_most_general (cs : List Constraint) (mono : ∀ c ∈ cs, c.Mono) :
    (∀ solution, solve cs = .ok solution →
      Solves solution.subst cs ∧
      (∀ θ : Assignment, Unifies θ cs → ∀ t : Ty, t.Mono →
        ∃ u, solution.subst.apply t = .ok u ∧ u.assign θ = t.assign θ) ∧
      ∀ other : Subst, (∀ rule ∈ other, rule.2.Mono) → Solves other cs → ∀ t : Ty, t.Mono →
        ∃ u, solution.subst.apply t = .ok u ∧ other.apply u = other.apply t) ∧
    (∀ fault, solve cs = .error fault →
      fault.Unsolvable ∧ ¬ ∃ θ : Assignment, Unifies θ cs) ∧
    ((∃ fault, solve cs = .error fault) ↔ ¬ ∃ s : Subst, Solves s cs) := by
  refine ⟨fun solution h => ?_, fun fault h => ?_, ⟨fun ⟨fault, h⟩ => ?_, fun none => ?_⟩⟩
  · have general := mostGeneral_of_ok mono h
    refine ⟨general.solves mono, fun θ unifies t ht => ?_, fun other rules solves t ht => ?_⟩
    · exact ⟨_, general.solved.apply ht, general.assign_value unifies ht⟩
    · have solvedMono := ht.assign fun x _ => general.solved.value_mono x
      refine ⟨_, general.solved.apply ht, ?_⟩
      rw [Subst.apply_of_mono rules solvedMono, Subst.apply_of_mono rules ht,
        general.assign_value (solves.unifies mono) ht]
  · obtain ⟨unsolvable, none⟩ := fails_of_error mono h
    exact ⟨unsolvable, fun ⟨θ, unifies⟩ => none θ unifies⟩
  · rintro ⟨s, solves⟩
    exact (fails_of_error mono h).2 _ (solves.unifies mono)
  · cases result : solve cs with
    | error fault => exact ⟨fault, rfl⟩
    | ok solution =>
        have general := mostGeneral_of_ok mono result
        exact absurd ⟨solution.subst, general.solves mono⟩ none

theorem solve_computes_most_general_arrow :
    (∀ c ∈ [(⟨.arrow (.var "a") (.var "b"), .arrow (.arrow (.var "b") .int) (.var "c"), none⟩ :
      Constraint)], c.Mono) ∧
    ∃ solution, solve [⟨.arrow (.var "a") (.var "b"), .arrow (.arrow (.var "b") .int) (.var "c"),
      none⟩] = .ok solution ∧
      Solves solution.subst [⟨.arrow (.var "a") (.var "b"),
        .arrow (.arrow (.var "b") .int) (.var "c"), none⟩] := by
  have mono : ∀ c ∈ [(⟨.arrow (.var "a") (.var "b"), .arrow (.arrow (.var "b") .int) (.var "c"),
      none⟩ : Constraint)], c.Mono := by decide
  obtain ⟨success, failure, -⟩ := solve_computes_most_general _ mono
  refine ⟨mono, ?_⟩
  cases result : solve _ with
  | ok solution => exact ⟨solution, rfl, (success solution result).1⟩
  | error fault =>
      refine absurd ⟨fun x => if x = "a" then .arrow .int .int else .int, ?_⟩
        (failure fault result).2
      simp [Unifies, Ty.assign, Ty.int]

end HindleyMilner.Unify
