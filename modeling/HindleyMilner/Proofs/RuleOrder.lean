import HindleyMilner.Proofs.Solve
import Mathlib.Data.List.Permutation

/-!
The rules of a solution can be applied in any order. A solved form stays one when its rules change
places, and puts the same type for every name. Since no rule puts in a name that another rule
replaces, one go through the rules is final. The answer of solving is in solved form and speaks of
the names of the equations only, so both hold for it.

The rules of a pass are not in solved form, and their order does matter. Applied from the oldest to
the newest they do what the answer of solving does.
-/

namespace HindleyMilner

/-- Replaces by one rule after another, in the order of the list. -/
def Ty.rewrite (t : Ty) (rules : List Rule) : Except Fault Ty :=
  rules.foldlM (fun u rule => u.replace rule.1 rule.2) t

theorem Ty.Mono.rewrite {t : Ty} (mono : t.Mono) {rules : List Rule}
    (h : ∀ rule ∈ rules, rule.2.Mono) :
    t.rewrite rules = .ok (rules.foldl (fun u rule => u.subst rule.1 rule.2) t) := by
  induction rules generalizing t with
  | nil => rfl
  | cons rule rules ih =>
      have next : (t.subst rule.1 rule.2).Mono := mono.subst (h rule (by simp)) rule.1
      have rest := ih next fun other ho => h other (by simp [ho])
      rw [Ty.rewrite, List.foldlM_cons]
      exact bind_eq_ok.2 ⟨_, mono.replace rule.1 rule.2, rest⟩

namespace Subst

variable {s order : Subst}

theorem Solved.perm (solved : s.Solved) (perm : order.Perm s) : order.Solved := by
  have names : order.names.Perm s.names := perm.map Prod.fst
  refine ⟨fun rule hr => ?_, names.nodup_iff.2 solved.distinct, fun rule hr x hx => ?_⟩
  · exact solved.mono rule (perm.mem_iff.1 hr)
  · exact solved.apart rule (perm.mem_iff.1 hr) x (names.mem_iff.1 hx)

theorem Solved.value_perm (solved : s.Solved) (perm : order.Perm s) : order.value = s.value := by
  have names : order.names.Perm s.names := perm.map Prod.fst
  funext x
  cases order.value_cases x with
  | inl mem => exact (solved.value_of_mem (perm.mem_iff.1 mem)).symm
  | inr stays => rw [stays.2, value_of_notMem (mt names.mem_iff.2 stays.1)]

theorem Solved.rewrite_eq_apply (solved : s.Solved) (perm : order.Perm s) {t : Ty}
    (mono : t.Mono) : t.rewrite order = s.apply t := by
  have ordered := solved.perm perm
  rw [mono.rewrite ordered.mono, ordered.foldl_subst mono, solved.value_perm perm,
    solved.apply mono]

theorem Solved.apply_apply (solved : s.Solved) {t u : Ty} (mono : t.Mono)
    (applied : s.apply t = .ok u) : s.apply u = .ok u := by
  rw [solved.apply mono, Except.ok.injEq] at applied
  subst applied
  have image : (t.assign s.value).Mono := mono.assign fun x _ => solved.value_mono x
  rw [solved.apply image, Ty.assign_assign mono]
  exact congrArg _ (Ty.assign_congr fun x _ => solved.value_value x)

theorem Solved.reduce_eq_apply (solved : s.Solved) {c : Constraint} (mono : c.Mono) :
    c.reduce s = c.apply s := by
  rw [solved.reduce mono, Constraint.apply, solved.apply mono.1, solved.apply mono.2]
  rfl

end Subst

/-- The answer of solving has one rule for each name, no rule puts in a name that has one, and all
its names come from the equations. Applying it twice is applying it once, and the order of its
rules does not matter. -/
theorem Unify.solution_in_solved_form {cs : List Constraint} (mono : ∀ c ∈ cs, c.Mono)
    {solution : Solution} (h : solve cs = .ok solution) :
    solution.subst.names.Nodup ∧
    (∀ rule ∈ solution.subst, ∀ x ∈ solution.subst.names, x ∉ rule.2.occurrences) ∧
    (∀ rule ∈ solution.subst,
      rule.2.Mono ∧ rule.1 ∈ occurrences cs ∧ rule.2.occurrences ⊆ occurrences cs) ∧
    (∀ t : Ty, t.Mono → ∃ u, solution.subst.apply t = .ok u ∧ solution.subst.apply u = .ok u ∧
      ∀ order : List Rule, order.Perm solution.subst → t.rewrite order = .ok u) ∧
    ∀ c : Constraint, c.Mono → c.reduce solution.subst = c.apply solution.subst := by
  have general := mostGeneral_of_ok mono h
  have solved := general.solved
  refine ⟨solved.distinct, solved.apart, fun rule hr => ?_, fun t ht => ?_,
    fun c hc => solved.reduce_eq_apply hc⟩
  · exact ⟨solved.mono rule hr, general.rule_support hr⟩
  · have applied := solved.apply ht
    refine ⟨_, applied, solved.apply_apply ht applied, fun order perm => ?_⟩
    rw [solved.rewrite_eq_apply perm ht, applied]

theorem Unify.solution_in_solved_form_chain :
    (∀ c ∈ [(⟨.var "a", .arrow (.var "b") (.var "c"), none⟩ : Constraint),
      ⟨.var "b", .var "c", none⟩], c.Mono) ∧
    solve [⟨.var "a", .arrow (.var "b") (.var "c"), none⟩, ⟨.var "b", .var "c", none⟩] =
      .ok ⟨[("b", .var "c"), ("a", .arrow (.var "c") (.var "c"))], 2⟩ ∧
    ∃ u, Subst.apply [("b", .var "c"), ("a", .arrow (.var "c") (.var "c"))]
        (.arrow (.var "a") (.var "b")) = .ok u ∧
      ∀ order : List Rule,
        order.Perm [("b", .var "c"), ("a", .arrow (.var "c") (.var "c"))] →
        (Ty.arrow (.var "a") (.var "b")).rewrite order = .ok u := by
  have mono : ∀ c ∈ [(⟨.var "a", .arrow (.var "b") (.var "c"), none⟩ : Constraint),
      ⟨.var "b", .var "c", none⟩], c.Mono := by decide
  have solves : solve [⟨.var "a", .arrow (.var "b") (.var "c"), none⟩,
      ⟨.var "b", .var "c", none⟩] =
      .ok ⟨[("b", .var "c"), ("a", .arrow (.var "c") (.var "c"))], 2⟩ := by cbv
  obtain ⟨-, -, -, applies, -⟩ := solution_in_solved_form mono solves
  obtain ⟨u, applied, -, orders⟩ := applies (.arrow (.var "a") (.var "b")) (by decide)
  exact ⟨mono, solves, u, applied, orders⟩

theorem Unify.Triangular.rewrite {rules : List Rule} (h : Triangular rules) {t : Ty}
    (mono : t.Mono) : t.rewrite rules = .ok (t.assign (outcome rules)) := by
  rw [mono.rewrite h.mono]
  congr 1
  induction rules generalizing t with
  | nil => exact (Ty.assign_var t).symm
  | cons rule rules ih =>
      have next : (t.subst rule.1 rule.2).Mono := mono.subst h.1 rule.1
      rw [List.foldl_cons, ih h.2.2.2 next, assign_outcome_cons mono]

/-- The answer of solving has a rule for each name that the first pass solves for, the last of them
in front. It does to every type what the rules of the pass do one after another. -/
theorem Unify.solution_follows_pass {cs : List Constraint} (mono : ∀ c ∈ cs, c.Mono)
    {solution : Solution} (h : solve cs = .ok solution) :
    ∃ rules, pass cs = .ok rules ∧
      solution.subst.names = (rules.map Prod.fst).reverse ∧
      ∀ t : Ty, t.Mono → ∃ u, solution.subst.apply t = .ok u ∧ t.rewrite rules = .ok u := by
  cases found : pass cs with
  | error fault =>
      rw [solve_of_pass_error found] at h
      cases h
  | ok rules =>
      obtain ⟨s, solves, solved, names, value⟩ := solve_of_pass_ok mono found
      rw [solves] at h
      cases h
      refine ⟨rules, rfl, names, fun t ht => ⟨_, solved.apply ht, ?_⟩⟩
      rw [(pass_triangular mono found).rewrite ht, value]

theorem Unify.solution_follows_pass_chain :
    (∀ c ∈ [(⟨.var "a", .arrow (.var "b") (.var "c"), none⟩ : Constraint),
      ⟨.var "b", .arrow (.var "c") (.var "c"), none⟩, ⟨.int, .var "c", none⟩], c.Mono) ∧
    pass [⟨.var "a", .arrow (.var "b") (.var "c"), none⟩,
        ⟨.var "b", .arrow (.var "c") (.var "c"), none⟩, ⟨.int, .var "c", none⟩] =
      .ok [("a", .arrow (.var "b") (.var "c")), ("b", .arrow (.var "c") (.var "c")),
        ("c", .int)] ∧
    ∃ solution, solve [⟨.var "a", .arrow (.var "b") (.var "c"), none⟩,
        ⟨.var "b", .arrow (.var "c") (.var "c"), none⟩, ⟨.int, .var "c", none⟩] = .ok solution ∧
      solution.subst.names = ["c", "b", "a"] ∧
      ∃ u, solution.subst.apply (.var "a") = .ok u ∧
        (Ty.var "a").rewrite [("a", .arrow (.var "b") (.var "c")),
          ("b", .arrow (.var "c") (.var "c")), ("c", .int)] = .ok u := by
  have mono : ∀ c ∈ [(⟨.var "a", .arrow (.var "b") (.var "c"), none⟩ : Constraint),
      ⟨.var "b", .arrow (.var "c") (.var "c"), none⟩, ⟨.int, .var "c", none⟩], c.Mono := by decide
  have passes : pass [⟨.var "a", .arrow (.var "b") (.var "c"), none⟩,
      ⟨.var "b", .arrow (.var "c") (.var "c"), none⟩, ⟨.int, .var "c", none⟩] =
      .ok [("a", .arrow (.var "b") (.var "c")), ("b", .arrow (.var "c") (.var "c")),
        ("c", .int)] := by cbv
  have solves : solve [⟨.var "a", .arrow (.var "b") (.var "c"), none⟩,
      ⟨.var "b", .arrow (.var "c") (.var "c"), none⟩, ⟨.int, .var "c", none⟩] =
      .ok ⟨[("c", .int), ("b", .arrow .int .int), ("a", .arrow (.arrow .int .int) .int)], 2⟩ := by
    cbv
  obtain ⟨rules, found, names, agree⟩ := solution_follows_pass mono solves
  cases passes.symm.trans found
  exact ⟨mono, passes, _, solves, names, agree (.var "a") trivial⟩

end HindleyMilner
