import HindleyMilner.Unify.Pass
import HindleyMilner.Proofs.SolvedForm

/-!
One pass over equations without quantifiers keeps their solutions: an assignment solves the
equations exactly if it solves the rules that the pass finds, and if the pass fails then nothing
solves them. The rules are triangular, so solving them from the last to the first gives an
assignment that all solutions refine.
-/

namespace HindleyMilner

def Unifies (θ : Assignment) (cs : List Constraint) : Prop :=
  ∀ c ∈ cs, c.left.assign θ = c.right.assign θ

@[simp] theorem unifies_nil (θ : Assignment) : Unifies θ [] := by
  simp [Unifies]

@[simp] theorem unifies_cons {θ : Assignment} {c : Constraint} {cs : List Constraint} :
    Unifies θ (c :: cs) ↔ c.left.assign θ = c.right.assign θ ∧ Unifies θ cs := by
  simp [Unifies]

@[simp] theorem unifies_append {θ : Assignment} {cs ds : List Constraint} :
    Unifies θ (cs ++ ds) ↔ Unifies θ cs ∧ Unifies θ ds := by
  simp [Unifies, or_imp, forall_and]

def Fault.Unsolvable : Fault → Prop
  | .infinite .. | .mismatch .. => True
  | .unbound .. | .notAType _ => False

namespace Unify

/-- A rule mentions neither its own name nor the name of an earlier rule. -/
def Triangular : List Rule → Prop
  | [] => True
  | (x, t) :: rules =>
      t.Mono ∧ x ∉ t.occurrences ∧ (∀ rule ∈ rules, rule.1 ≠ x ∧ x ∉ rule.2.occurrences) ∧
        Triangular rules

theorem Triangular.mono {rules : List Rule} (h : Triangular rules) :
    ∀ rule ∈ rules, rule.2.Mono := by
  induction rules with
  | nil => simp
  | cons rule rules ih => exact List.forall_mem_cons.2 ⟨h.1, ih h.2.2.2⟩

/-- What rules put for a name when each acts on what the earlier ones put in. -/
def outcome : List Rule → Assignment
  | [] => .var
  | (x, t) :: rules => Function.update (outcome rules) x (t.assign (outcome rules))

theorem assign_outcome_cons {t : Ty} (mono : t.Mono) (x : String) (r : Ty) (rules : List Rule) :
    t.assign (outcome ((x, r) :: rules)) = (t.subst x r).assign (outcome rules) := by
  rw [Ty.subst_eq_assign, Ty.assign_assign mono]
  refine Ty.assign_congr fun y _ => ?_
  by_cases hy : y = x
  · simp [outcome, hy]
  · simp [outcome, Function.update_of_ne hy, Ty.assign]

theorem outcome_solves {rules : List Rule} (h : Triangular rules) :
    ∀ rule ∈ rules, outcome rules rule.1 = rule.2.assign (outcome rules) := by
  induction rules with
  | nil => simp
  | cons first rules ih =>
      obtain ⟨x, t⟩ := first
      obtain ⟨-, acyclic, later, triangular⟩ := h
      have keeps : ∀ u : Ty, x ∉ u.occurrences →
          u.assign (outcome ((x, t) :: rules)) = u.assign (outcome rules) := by
        intro u hu
        refine Ty.assign_congr fun y hy => ?_
        have hne : y ≠ x := fun equal => hu (equal ▸ hy)
        rw [outcome, Function.update_of_ne hne]
      intro rule hr
      cases List.mem_cons.1 hr with
      | inl equal =>
          rw [equal, keeps t acyclic, outcome, Function.update_self]
      | inr mem =>
          rw [keeps rule.2 (later rule mem).2, ← ih triangular rule mem, outcome,
            Function.update_of_ne (later rule mem).1]

theorem outcome_absorbed {rules : List Rule} (h : Triangular rules) {θ : Assignment}
    (solves : ∀ rule ∈ rules, θ rule.1 = rule.2.assign θ) (x : String) :
    (outcome rules x).assign θ = θ x := by
  induction rules generalizing x with
  | nil => rfl
  | cons rule rules ih =>
      have rest : ∀ y, (outcome rules y).assign θ = θ y :=
        ih h.2.2.2 fun other ho => solves other (by simp [ho])
      by_cases hx : x = rule.1
      · rw [hx, outcome, Function.update_self, Ty.assign_assign h.1, solves rule (by simp)]
        exact Ty.assign_congr fun y _ => rest y
      · rw [outcome, Function.update_of_ne hx]
        exact rest x

theorem solveFor_discard {x : String} {t : Ty} {origin : Option Location}
    (h : solveFor x t origin = .discard) : t = .var x := by
  unfold solveFor at h
  split at h
  · assumption
  · split at h <;> cases h

theorem solveFor_refuse {x : String} {t : Ty} {origin : Option Location} {fault : Fault}
    (h : solveFor x t origin = .refuse fault) :
    t ≠ .var x ∧ t.mentions x = true ∧ fault = .infinite x t origin := by
  unfold solveFor at h
  split at h
  · cases h
  · split at h
    · cases h
      exact ⟨‹_›, ‹_›, rfl⟩
    · cases h

theorem step_discard {c : Constraint} (h : step c = .discard) : c.left = c.right := by
  unfold step at h
  split at h
  · split at h
    · simp_all
    · cases h
  · cases h
  · have equal := solveFor_discard h
    simp_all
  · have equal := solveFor_discard h
    simp_all
  · cases h

theorem step_bind {c : Constraint} {x : String} {t : Ty} (h : step c = .bind x t) :
    (c.left = .var x ∧ c.right = t) ∨ (c.left = t ∧ c.right = .var x) := by
  unfold step at h
  split at h
  · split at h <;> cases h
  · cases h
  · obtain ⟨rfl, rfl, -⟩ := solveFor_eq_bind h
    exact .inl ⟨‹_›, rfl⟩
  · obtain ⟨rfl, rfl, -⟩ := solveFor_eq_bind h
    exact .inr ⟨rfl, ‹_›⟩
  · cases h

theorem step_refuse {c : Constraint} (mono : c.Mono) {fault : Fault}
    (h : step c = .refuse fault) :
    fault.Unsolvable ∧ ∀ θ : Assignment, c.left.assign θ ≠ c.right.assign θ := by
  obtain ⟨left, right, origin⟩ := c
  obtain ⟨monoLeft, monoRight⟩ := mono
  cases left with
  | prim a =>
      cases right with
      | prim b =>
          by_cases same : a = b
          · simp [step, same] at h
          · simp only [step, same, ↓reduceIte, Step.refuse.injEq] at h
            subst h
            exact ⟨trivial, fun θ => by simpa [Ty.assign] using same⟩
      | arrow => cases h; exact ⟨trivial, fun θ => by simp [Ty.assign]⟩
      | var x =>
          obtain ⟨-, occurs, -⟩ := solveFor_refuse h
          simp [Ty.mentions] at occurs
      | poly | foreign => exact monoRight.elim
  | arrow d c =>
      cases right with
      | prim => cases h; exact ⟨trivial, fun θ => by simp [Ty.assign]⟩
      | arrow => cases h
      | var x =>
          obtain ⟨differ, occurs, rfl⟩ := solveFor_refuse h
          have inside := monoLeft.mentions_iff.1 occurs
          exact ⟨trivial, fun θ => (Ty.assign_ne_of_occurs monoLeft inside differ θ).symm⟩
      | poly | foreign => exact monoRight.elim
  | var x =>
      have refused : solveFor x right origin = .refuse fault := by
        cases right <;> exact h
      obtain ⟨differ, occurs, rfl⟩ := solveFor_refuse refused
      have inside := monoRight.mentions_iff.1 occurs
      exact ⟨trivial, fun θ => Ty.assign_ne_of_occurs monoRight inside differ θ⟩
  | poly | foreign => exact monoLeft.elim

theorem substAll_mono {x : String} {t : Ty} (ht : t.Mono) {cs : List Constraint}
    (mono : ∀ c ∈ cs, c.Mono) : ∀ c ∈ substAll x t cs, c.Mono := by
  intro c hc
  obtain ⟨old, ho, rfl⟩ := List.mem_map.1 hc
  exact (mono old ho).subst ht x

theorem split_mono {c a b : Constraint} {rest : List Constraint} (h : step c = .split a b)
    (mono : ∀ d ∈ c :: rest, d.Mono) : ∀ d ∈ a :: b :: rest, d.Mono := by
  obtain ⟨d₁, c₁, d₂, c₂, hl, hr, rfl, rfl⟩ := step_eq_split h
  have head : c.Mono := mono c (by simp)
  rw [Constraint.Mono, hl, hr] at head
  intro d hd
  cases hd with
  | head => exact ⟨head.1.1, head.2.1⟩
  | tail _ hd =>
      cases hd with
      | head => exact ⟨head.1.2, head.2.2⟩
      | tail _ hd => exact mono d (List.mem_cons_of_mem _ hd)

theorem bind_mono {c : Constraint} {x : String} {t : Ty} (h : step c = .bind x t)
    (mono : c.Mono) : t.Mono := by
  cases step_bind h with
  | inl sides => exact sides.2 ▸ mono.2
  | inr sides => exact sides.1 ▸ mono.1

theorem unifies_split {c a b : Constraint} {rest : List Constraint} (h : step c = .split a b)
    (θ : Assignment) : Unifies θ (c :: rest) ↔ Unifies θ (a :: b :: rest) := by
  obtain ⟨d₁, c₁, d₂, c₂, hl, hr, rfl, rfl⟩ := step_eq_split h
  simp [hl, hr, Ty.assign, and_assoc]

theorem unifies_bind {c : Constraint} {rest : List Constraint} {x : String} {t : Ty}
    (h : step c = .bind x t) (mono : ∀ d ∈ rest, d.Mono) (θ : Assignment) :
    Unifies θ (c :: rest) ↔ θ x = t.assign θ ∧ Unifies θ (substAll x t rest) := by
  have first : c.left.assign θ = c.right.assign θ ↔ θ x = t.assign θ := by
    cases step_bind h with
    | inl sides => rw [sides.1, sides.2, Ty.assign]
    | inr sides => rw [sides.1, sides.2, Ty.assign, eq_comm]
  rw [unifies_cons, first]
  refine and_congr_right fun solves => ?_
  have same : ∀ d ∈ rest, ((d.subst x t).left.assign θ = (d.subst x t).right.assign θ ↔
      d.left.assign θ = d.right.assign θ) := by
    intro d hd
    rw [Constraint.subst, Ty.assign_subst (mono d hd).1 solves,
      Ty.assign_subst (mono d hd).2 solves]
  simp only [Unifies, substAll, List.forall_mem_map]
  exact forall₂_congr fun d hd => (same d hd).symm

theorem mem_occurrences_substAll {x y : String} {t : Ty} {cs : List Constraint}
    (h : y ∈ occurrences (substAll x t cs)) :
    (y ∈ occurrences cs ∧ y ≠ x) ∨ y ∈ t.occurrences := by
  simp only [occurrences, substAll, List.mem_flatMap, List.mem_map] at h
  obtain ⟨_, ⟨c, hc, rfl⟩, hy⟩ := h
  cases Constraint.mem_occurrences_subst hy with
  | inl old => exact .inl ⟨List.mem_flatMap.2 ⟨c, hc, old.1⟩, old.2⟩
  | inr new => exact .inr new

theorem occurrences_split {c a b : Constraint} {rest : List Constraint}
    (h : step c = .split a b) : occurrences (a :: b :: rest) ⊆ occurrences (c :: rest) := by
  obtain ⟨d₁, c₁, d₂, c₂, hl, hr, rfl, rfl⟩ := step_eq_split h
  intro x hx
  simp only [occurrences, List.flatMap_cons, List.mem_append, Constraint.occurrences, hl, hr,
    Ty.occurrences] at hx ⊢
  grind

theorem findSome?_obstacle {cs : List Constraint} (mono : ∀ c ∈ cs, c.Mono) (x : String) :
    cs.findSome? (Constraint.obstacle x) = none := by
  rw [List.findSome?_eq_none_iff]
  exact fun c hc => (mono c hc).obstacle x

theorem pass_solutions {cs : List Constraint} {rules : List Rule} (mono : ∀ c ∈ cs, c.Mono)
    (h : pass cs = .ok rules) (θ : Assignment) :
    Unifies θ cs ↔ ∀ rule ∈ rules, θ rule.1 = rule.2.assign θ := by
  fun_induction pass cs generalizing rules with
  | case1 =>
      cases h
      simp
  | case2 c rest discarded ih =>
      have equal : c.left = c.right := step_discard discarded
      rw [unifies_cons, equal, ← ih (fun d hd => mono d (by simp [hd])) h]
      simp
  | case3 c rest a b splits ih =>
      rw [unifies_split splits]
      exact ih (split_mono splits mono) h
  | case4 => cases h
  | case5 => cases h
  | case6 c rest x t binds _ ih =>
      obtain ⟨found, ok, equal⟩ := bind_eq_ok.1 h
      cases equal
      have monoRest : ∀ d ∈ rest, d.Mono := fun d hd => mono d (by simp [hd])
      have monoRule : t.Mono := bind_mono binds (mono c (by simp))
      rw [unifies_bind binds monoRest, ih (substAll_mono monoRule monoRest) ok]
      simp

theorem pass_support {cs : List Constraint} {rules : List Rule} (h : pass cs = .ok rules) :
    ∀ rule ∈ rules, rule.1 ∈ occurrences cs ∧ rule.2.occurrences ⊆ occurrences cs := by
  fun_induction pass cs generalizing rules with
  | case1 =>
      cases h
      simp
  | case2 c rest _ ih =>
      have wider : occurrences rest ⊆ occurrences (c :: rest) := by
        simp [occurrences]
      intro rule hr
      exact ⟨wider (ih h rule hr).1, fun x hx => wider ((ih h rule hr).2 hx)⟩
  | case3 c rest a b splits ih =>
      have wider : occurrences (a :: b :: rest) ⊆ occurrences (c :: rest) :=
        occurrences_split splits
      intro rule hr
      exact ⟨wider (ih h rule hr).1, fun x hx => wider ((ih h rule hr).2 hx)⟩
  | case4 => cases h
  | case5 => cases h
  | case6 c rest x t binds _ ih =>
      obtain ⟨found, ok, equal⟩ := bind_eq_ok.1 h
      cases equal
      obtain ⟨named, inside, -⟩ := step_eq_bind binds
      have first : c.occurrences ⊆ occurrences (c :: rest) := by simp [occurrences]
      have wider : occurrences (substAll x t rest) ⊆ occurrences (c :: rest) := by
        intro y hy
        cases mem_occurrences_substAll hy with
        | inl old => simpa [occurrences] using .inr (List.mem_flatMap.1 old.1)
        | inr new => exact first (inside new)
      intro rule hr
      cases hr with
      | head => exact ⟨first named, fun y hy => first (inside hy)⟩
      | tail _ hr => exact ⟨wider (ih ok rule hr).1, fun y hy => wider ((ih ok rule hr).2 hy)⟩

theorem pass_triangular {cs : List Constraint} {rules : List Rule} (mono : ∀ c ∈ cs, c.Mono)
    (h : pass cs = .ok rules) : Triangular rules := by
  fun_induction pass cs generalizing rules with
  | case1 =>
      cases h
      trivial
  | case2 c rest _ ih => exact ih (fun d hd => mono d (by simp [hd])) h
  | case3 c rest a b splits ih => exact ih (split_mono splits mono) h
  | case4 => cases h
  | case5 => cases h
  | case6 c rest x t binds _ ih =>
      obtain ⟨found, ok, equal⟩ := bind_eq_ok.1 h
      cases equal
      have monoRest : ∀ d ∈ rest, d.Mono := fun d hd => mono d (by simp [hd])
      have monoRule : t.Mono := bind_mono binds (mono c (by simp))
      have acyclic : x ∉ t.occurrences := (step_eq_bind binds).2.2
      have gone : x ∉ occurrences (substAll x t rest) := by
        intro hx
        cases mem_occurrences_substAll hx with
        | inl old => exact old.2 rfl
        | inr new => exact acyclic new
      refine ⟨monoRule, acyclic, fun rule hr => ?_, ih (substAll_mono monoRule monoRest) ok⟩
      have support := pass_support ok rule hr
      exact ⟨fun equal => gone (equal ▸ support.1), fun hx => gone (support.2 hx)⟩

theorem pass_fails {cs : List Constraint} {fault : Fault} (mono : ∀ c ∈ cs, c.Mono)
    (h : pass cs = .error fault) : fault.Unsolvable ∧ ∀ θ : Assignment, ¬ Unifies θ cs := by
  fun_induction pass cs with
  | case1 => cases h
  | case2 c rest _ ih =>
      obtain ⟨unsolvable, none⟩ := ih (fun d hd => mono d (by simp [hd])) h
      exact ⟨unsolvable, fun θ solves => none θ (unifies_cons.1 solves).2⟩
  | case3 c rest a b splits ih =>
      obtain ⟨unsolvable, none⟩ := ih (split_mono splits mono) h
      exact ⟨unsolvable, fun θ solves => none θ ((unifies_split splits θ).1 solves)⟩
  | case4 c rest found refused =>
      cases h
      obtain ⟨unsolvable, differ⟩ := step_refuse (mono c (by simp)) refused
      exact ⟨unsolvable, fun θ solves => differ θ (unifies_cons.1 solves).1⟩
  | case5 c rest x t _ text obstacle =>
      rw [findSome?_obstacle (fun d hd => mono d (by simp [hd]))] at obstacle
      cases obstacle
  | case6 c rest x t binds _ ih =>
      have monoRest : ∀ d ∈ rest, d.Mono := fun d hd => mono d (by simp [hd])
      have monoRule : t.Mono := bind_mono binds (mono c (by simp))
      cases bind_eq_error.1 h with
      | inl failed =>
          obtain ⟨unsolvable, none⟩ := ih (substAll_mono monoRule monoRest) failed
          exact ⟨unsolvable, fun θ solves => none θ ((unifies_bind binds monoRest θ).1 solves).2⟩
      | inr late =>
          obtain ⟨_, _, absurd⟩ := late
          cases absurd

theorem pass_of_equal {cs : List Constraint} (mono : ∀ c ∈ cs, c.Mono)
    (equal : ∀ c ∈ cs, c.left = c.right) : pass cs = .ok [] := by
  cases h : pass cs with
  | error fault =>
      have solved : Unifies .var cs := fun c hc => by rw [equal c hc]
      exact absurd solved ((pass_fails mono h).2 .var)
  | ok rules =>
      cases rules with
      | nil => rfl
      | cons rule rules =>
          have solved : Unifies .var cs := fun c hc => by rw [equal c hc]
          have solves := (pass_solutions mono h .var).1 solved rule (by simp)
          have triangular := pass_triangular mono h
          rw [Ty.assign_var] at solves
          exact absurd (by simp [← solves, Ty.occurrences]) triangular.2.1

end Unify

end HindleyMilner
