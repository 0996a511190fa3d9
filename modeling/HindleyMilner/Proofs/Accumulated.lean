import HindleyMilner.Proofs.Termination
import Mathlib.Data.List.Permutation

/-!
Solving that starts from a substitution. The rules of a pass are merged into the substitution, but
the first pass runs on the equations as they are, so whether solving succeeds does not depend on
where it starts. If the equations do not speak of the names that already have a rule, the merged
substitution is in solved form again, solves the equations and refines the one it started from. If
they do, a name can get a second rule: equations are reduced with the new rule and types with the
old one. The answer then need not solve the equations, and there is one even where nothing solves
them and refines the start.
-/

namespace HindleyMilner

theorem Ty.Mono.outline_eq {t : Ty} (mono : t.Mono) : t.outline = t := by
  induction t with
  | prim | var => rfl
  | arrow d c ihd ihc => rw [Ty.outline, ihd mono.1, ihc mono.2]
  | poly | foreign => exact mono.elim

namespace Subst

def Refines (s earlier : Subst) : Prop :=
  ∀ t : Ty, t.Mono → ∃ u, earlier.apply t = .ok u ∧ s.apply u = s.apply t

theorem apply_prim (s : Subst) (p : String) : s.apply (.prim p) = .ok (.prim p) := by
  induction s with
  | nil => rfl
  | cons rule s ih =>
      rw [apply_cons, ih]
      rfl

theorem push_mono {s : Subst} (hs : ∀ rule ∈ s, rule.2.Mono) {rule : Rule} (hr : rule.2.Mono) :
    ∀ new ∈ s.push rule, new.2.Mono := by
  intro new hn
  cases List.mem_cons.1 hn with
  | inl same => exact same ▸ hr
  | inr mem =>
      obtain ⟨old, ho, rfl⟩ := List.mem_map.1 mem
      exact (hs old ho).subst hr rule.1

theorem foldl_subst_mono {s : Subst} (hs : ∀ rule ∈ s, rule.2.Mono) {t : Ty} (mono : t.Mono) :
    (s.foldl (fun u rule => u.subst rule.1 rule.2) t).Mono := by
  induction s generalizing t with
  | nil => exact mono
  | cons rule s ih =>
      exact ih (fun other ho => hs other (by simp [ho])) (mono.subst (hs rule (by simp)) rule.1)

end Subst

namespace Unify

theorem merge_of_mono {s : Subst} (hs : ∀ rule ∈ s, rule.2.Mono) {rules : List Rule}
    (hr : ∀ rule ∈ rules, rule.2.Mono) :
    merge s rules = .ok (rules.foldl Subst.push s) ∧
      ∀ rule ∈ rules.foldl Subst.push s, rule.2.Mono := by
  induction rules generalizing s with
  | nil => exact ⟨rfl, hs⟩
  | cons rule rules ih =>
      have first : ∀ new ∈ s.push rule, new.2.Mono := Subst.push_mono hs (hr rule (by simp))
      obtain ⟨merges, mono⟩ := ih first fun other ho => hr other (by simp [ho])
      refine ⟨?_, mono⟩
      rw [merge, List.foldlM_cons]
      exact bind_eq_ok.2 ⟨_, Subst.extend_of_mono hs rule.1 rule.2, merges⟩

section

variable {s : Subst} {cs : List Constraint} {rules : List Rule}

theorem reduced_eq (mono : ∀ c ∈ cs, c.Mono) (hs : ∀ rule ∈ s, rule.2.Mono)
    (found : pass cs = .ok rules) :
    ∀ c ∈ cs, ∃ d : Constraint,
      c.reduce (rules.foldl Subst.push s) = .ok d ∧ d.Mono ∧ d.left = d.right := by
  obtain ⟨merges, merged⟩ := merge_of_mono hs (pass_triangular mono found).mono
  intro c hc
  have left := Subst.foldl_subst_mono merged (mono c hc).1
  have right := Subst.foldl_subst_mono merged (mono c hc).2
  refine ⟨_, (mono c hc).reduce merged, ⟨left, right⟩, ?_⟩
  have outlines := outline_eq_of_reduced found merges hc
  rwa [left.outline_eq, right.outline_eq] at outlines

/-- Whatever solving starts from, the first pass decides. -/
theorem solveFrom_of_pass_ok (mono : ∀ c ∈ cs, c.Mono) (hs : ∀ rule ∈ s, rule.2.Mono)
    (found : pass cs = .ok rules) :
    ∃ rounds, solveFrom s cs = .ok ⟨rules.foldl Subst.push s, rounds⟩ := by
  have enough : ∀ rounds ≤ 2, rounds ≤ cs.length + 2 := fun _ le => by omega
  cases rules with
  | nil =>
      have stops : Runs round (s, cs) 1 (.ok s) := .stop (by simp only [round, found])
      exact ⟨_, roundsFrom_of_runs stops (enough 1 (by omega)) 0⟩
  | cons rule rules =>
      obtain ⟨merges, -⟩ := merge_of_mono hs (pass_triangular mono found).mono
      choose! reduced reduces monoReduced equal using reduced_eq mono hs found
      have first : round (s, cs) =
          .again ((rule :: rules).foldl Subst.push s, cs.map reduced) := by
        simp only [round, found, merges, mapM_eq_ok reduces]
      have settled : pass (cs.map reduced) = .ok [] :=
        pass_of_equal (List.forall_mem_map.2 monoReduced) (List.forall_mem_map.2 equal)
      have second : round ((rule :: rules).foldl Subst.push s, cs.map reduced) =
          .stop (.ok ((rule :: rules).foldl Subst.push s)) := by
        simp only [round, settled]
      exact ⟨_, roundsFrom_of_runs (.again first (.stop second)) (enough 2 (by omega)) 0⟩

theorem exists_rules_of_solveFrom {solution : Solution} (mono : ∀ c ∈ cs, c.Mono)
    (hs : ∀ rule ∈ s, rule.2.Mono) (h : solveFrom s cs = .ok solution) :
    ∃ rules, pass cs = .ok rules ∧ solution.subst = rules.foldl Subst.push s := by
  cases found : pass cs with
  | error fault =>
      rw [solveFrom_of_pass_error s found] at h
      cases h
  | ok rules =>
      obtain ⟨rounds, solves⟩ := solveFrom_of_pass_ok mono hs found
      rw [solves] at h
      cases h
      exact ⟨rules, rfl, rfl⟩

theorem solveFrom_fails_iff (mono : ∀ c ∈ cs, c.Mono) (hs : ∀ rule ∈ s, rule.2.Mono) :
    (∃ fault, solveFrom s cs = .error fault) ↔ ¬ ∃ θ : Assignment, Unifies θ cs := by
  cases found : pass cs with
  | error fault =>
      have none : ¬ ∃ θ : Assignment, Unifies θ cs := fun ⟨θ, unifies⟩ =>
        (pass_fails mono found).2 θ unifies
      exact iff_of_true ⟨fault, solveFrom_of_pass_error s found⟩ none
  | ok rules =>
      obtain ⟨rounds, solves⟩ := solveFrom_of_pass_ok mono hs found
      refine iff_of_false ?_ fun none => none ⟨_, outcome_unifies mono found⟩
      rintro ⟨fault, fails⟩
      rw [solves] at fails
      cases fails

end

theorem merged_over_new_names {s : Subst} (solved : s.Solved) {cs : List Constraint}
    (mono : ∀ c ∈ cs, c.Mono) (apart : ∀ x ∈ s.names, x ∉ occurrences cs) {rules : List Rule}
    (found : pass cs = .ok rules) :
    (rules.foldl Subst.push s).Solved ∧
      ∀ y, (rules.foldl Subst.push s).value y = (s.value y).assign (outcome rules) := by
  have support := pass_support found
  have outside : ∀ rule ∈ rules, rule.1 ∉ s.names ∧ ∀ y ∈ s.names, y ∉ rule.2.occurrences :=
    fun rule hr => ⟨fun named => apart _ named (support rule hr).1,
      fun y named occurs => apart y named ((support rule hr).2 occurs)⟩
  obtain ⟨s', merges, solved', -, values⟩ :=
    merge_triangular solved (pass_triangular mono found) outside
  rw [← merge_ok merges]
  exact ⟨solved', values⟩

theorem solves_and_refines {s : Subst} (solved : s.Solved) {cs : List Constraint}
    (mono : ∀ c ∈ cs, c.Mono) (apart : ∀ x ∈ s.names, x ∉ occurrences cs) {rules : List Rule}
    (found : pass cs = .ok rules) :
    Solves (rules.foldl Subst.push s) cs ∧ (rules.foldl Subst.push s).Refines s := by
  obtain ⟨merged, values⟩ := merged_over_new_names solved mono apart found
  have plain : ∀ y, y ∉ s.names → (rules.foldl Subst.push s).value y = outcome rules y := by
    intro y hy
    rw [values, Subst.value_of_notMem hy, Ty.assign]
  constructor
  · intro c hc
    have side : ∀ t : Ty, t.Mono → t.occurrences ⊆ c.occurrences →
        (rules.foldl Subst.push s).apply t = .ok (t.assign (outcome rules)) := by
      intro t ht inside
      rw [merged.apply ht]
      refine congrArg _ (Ty.assign_congr fun y hy => plain y fun named => ?_)
      exact apart y named (List.mem_flatMap.2 ⟨c, hc, inside hy⟩)
    refine ⟨_, side c.left (mono c hc).1 (List.subset_append_left _ _), ?_⟩
    rw [side c.right (mono c hc).2 (List.subset_append_right _ _), outcome_unifies mono found c hc]
  · intro t ht
    have image : (t.assign s.value).Mono := ht.assign fun x _ => solved.value_mono x
    refine ⟨_, solved.apply ht, ?_⟩
    rw [merged.apply image, merged.apply ht, Ty.assign_assign ht]
    refine congrArg _ (Ty.assign_congr fun x _ => ?_)
    -- No name with a rule is left in what the start puts in.
    rw [values x]
    exact Ty.assign_congr fun y hy => plain y fun named => solved.notMem_value named hy

/-- Solving from a substitution in solved form fails exactly if nothing solves the equations, and
otherwise reduces them to equal sides. If the equations do not speak of names that have a rule, the
answer solves them and refines the substitution, and there is a fault if nothing does both. -/
theorem solving_from_accumulated {accumulated : Subst} (solved : accumulated.Solved)
    {cs : List Constraint} (mono : ∀ c ∈ cs, c.Mono) :
    ((∃ fault, solveFrom accumulated cs = .error fault) ↔ ¬ ∃ θ : Assignment, Unifies θ cs) ∧
    (∀ solution, solveFrom accumulated cs = .ok solution → ∀ c ∈ cs, ∃ d : Constraint,
      c.reduce solution.subst = .ok d ∧ d.left = d.right) ∧
    ((∀ x ∈ accumulated.names, x ∉ occurrences cs) →
      (∀ solution, solveFrom accumulated cs = .ok solution →
        Solves solution.subst cs ∧ solution.subst.Refines accumulated) ∧
      ((¬ ∃ s : Subst, (∀ rule ∈ s, rule.2.Mono) ∧ Solves s cs ∧ s.Refines accumulated) →
        ∃ fault, solveFrom accumulated cs = .error fault)) := by
  refine ⟨solveFrom_fails_iff mono solved.mono, fun solution h c hc => ?_,
    fun apart => ⟨fun solution h => ?_, fun none => ?_⟩⟩
  · obtain ⟨rules, found, answer⟩ := exists_rules_of_solveFrom mono solved.mono h
    obtain ⟨d, reduces, -, equal⟩ := reduced_eq mono solved.mono found c hc
    exact ⟨d, by rw [answer, reduces], equal⟩
  · obtain ⟨rules, found, answer⟩ := exists_rules_of_solveFrom mono solved.mono h
    rw [answer]
    exact solves_and_refines solved mono apart found
  · cases h : solveFrom accumulated cs with
    | error fault => exact ⟨fault, rfl⟩
    | ok solution =>
        obtain ⟨rules, found, -⟩ := exists_rules_of_solveFrom mono solved.mono h
        obtain ⟨merged, -⟩ := merged_over_new_names solved mono apart found
        obtain ⟨solves, refines⟩ := solves_and_refines solved mono apart found
        exact absurd ⟨_, merged.mono, solves, refines⟩ none

theorem solving_from_accumulated_pushes :
    Subst.Solved [("z", .arrow (.var "a") (.var "a"))] ∧
    (∀ c ∈ [(⟨.var "a", .int, none⟩ : Constraint)], c.Mono) ∧
    (∀ x ∈ Subst.names [("z", .arrow (.var "a") (.var "a"))],
      x ∉ occurrences [⟨.var "a", .int, none⟩]) ∧
    solveFrom [("z", .arrow (.var "a") (.var "a"))] [⟨.var "a", .int, none⟩] =
      .ok ⟨[("a", .int), ("z", .arrow .int .int)], 2⟩ ∧
    Solves [("a", .int), ("z", .arrow .int .int)] [⟨.var "a", .int, none⟩] ∧
    Subst.Refines [("a", .int), ("z", .arrow .int .int)] [("z", .arrow (.var "a") (.var "a"))] := by
  have solved : Subst.Solved [("z", .arrow (.var "a") (.var "a"))] :=
    ⟨by decide, by decide, by decide⟩
  have mono : ∀ c ∈ [(⟨.var "a", .int, none⟩ : Constraint)], c.Mono := by decide
  have apart : ∀ x ∈ Subst.names [("z", .arrow (.var "a") (.var "a"))],
      x ∉ occurrences [⟨.var "a", .int, none⟩] := by decide
  have solves : solveFrom [("z", .arrow (.var "a") (.var "a"))] [⟨.var "a", .int, none⟩] =
      .ok ⟨[("a", .int), ("z", .arrow .int .int)], 2⟩ := by cbv
  exact ⟨solved, mono, apart, solves,
    ((solving_from_accumulated solved mono).2.2 apart).1 _ solves⟩

theorem accumulated_rule_overruled :
    Subst.Solved [("a", .int)] ∧ (∀ c ∈ [(⟨.var "a", .bool, none⟩ : Constraint)], c.Mono) ∧
    solveFrom [("a", .int)] [⟨.var "a", .bool, none⟩] =
      .ok ⟨[("a", .bool), ("a", .int)], 2⟩ ∧
    ¬ Solves [("a", .bool), ("a", .int)] [⟨.var "a", .bool, none⟩] ∧
    ¬ ∃ s : Subst, Solves s [⟨.var "a", .bool, none⟩] ∧ s.Refines [("a", .int)] := by
  refine ⟨⟨by decide, by decide, by decide⟩, by decide, by cbv, fun solves => ?_, ?_⟩
  · obtain ⟨u, left, right⟩ := solves _ List.mem_cons_self
    rw [Subst.apply_prim] at right
    cases right
    have old : Subst.apply [("a", .bool), ("a", .int)] (.var "a") = .ok .int := by cbv
    rw [old] at left
    simp at left
  · rintro ⟨s, solves, refines⟩
    obtain ⟨u, left, right⟩ := solves _ List.mem_cons_self
    obtain ⟨v, first, same⟩ := refines (.var "a") trivial
    have int : Subst.apply [("a", .int)] (.var "a") = .ok .int := by cbv
    rw [int] at first
    cases first
    rw [left, ← right, Subst.apply_prim, Subst.apply_prim] at same
    simp at same

end Unify

end HindleyMilner
