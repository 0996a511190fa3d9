import HindleyMilner.Proofs.Termination
import Mathlib.Data.List.Induction
import Mathlib.Order.Bounds.Defs

/-!
The fault of solving names the first equation that cannot be added. A pass over two lists is a pass
over the first and then, with the rules found there pushed in, over the second; so a pass is done
with an equation before it looks at the next, and all that comes from an equation keeps its place.
The equations before the blamed one have a solution, and with it they have none.
-/

namespace HindleyMilner

/-- What a fault of solving shows: a placeholder inside a type other than itself, or two types of
which neither is a placeholder and whose outermost shapes differ. -/
def Fault.Evident : Fault → Prop
  | .infinite name type _ => name ∈ type.occurrences ∧ type ≠ .var name
  | .mismatch left right _ =>
      (∀ x, left ≠ .var x) ∧ (∀ x, right ≠ .var x) ∧
        (∀ p, ¬ (left = .prim p ∧ right = .prim p)) ∧
        ∀ d c d' c', ¬ (left = .arrow d c ∧ right = .arrow d' c')
  | .unbound .. | .notAType _ => False

namespace Unify

theorem step_refuse_evident {c : Constraint} (mono : c.Mono) {fault : Fault}
    (h : step c = .refuse fault) : fault.Evident ∧ fault.place = c.origin := by
  unfold step at h
  split at h
  · rename_i hl hr
    split at h
    · cases h
    · rename_i differ
      cases h
      refine ⟨?_, rfl⟩
      rw [hl, hr]
      simp [Fault.Evident, eq_comm, differ]
  · cases h
  · obtain ⟨differ, occurs, rfl⟩ := solveFor_refuse h
    exact ⟨⟨mono.2.mentions_iff.1 occurs, differ⟩, rfl⟩
  · obtain ⟨differ, occurs, rfl⟩ := solveFor_refuse h
    exact ⟨⟨mono.1.mentions_iff.1 occurs, differ⟩, rfl⟩
  · rename_i left right prims arrows
    cases h
    refine ⟨⟨left, right, fun p same => prims p p same.1 same.2, ?_⟩, rfl⟩
    exact fun d c d' c' same => arrows d c d' c' same.1 same.2

theorem pass_error_evident {cs : List Constraint} {fault : Fault} (mono : ∀ c ∈ cs, c.Mono)
    (h : pass cs = .error fault) : fault.Evident ∧ ∃ c ∈ cs, fault.place = c.origin := by
  fun_induction pass cs with
  | case1 => cases h
  | case2 c rest _ ih =>
      obtain ⟨evident, d, hd, place⟩ := ih (fun d hd => mono d (by simp [hd])) h
      exact ⟨evident, d, List.mem_cons_of_mem c hd, place⟩
  | case3 c rest a b splits ih =>
      obtain ⟨evident, d, hd, place⟩ := ih (split_mono splits mono) h
      obtain ⟨d₁, c₁, d₂, c₂, -, -, rfl, rfl⟩ := step_eq_split splits
      rw [List.mem_cons, List.mem_cons] at hd
      obtain rfl | rfl | hd := hd
      · exact ⟨evident, c, List.mem_cons_self, place⟩
      · exact ⟨evident, c, List.mem_cons_self, place⟩
      · exact ⟨evident, d, List.mem_cons_of_mem c hd, place⟩
  | case4 c rest found refused =>
      cases h
      obtain ⟨evident, place⟩ := step_refuse_evident (mono c (by simp)) refused
      exact ⟨evident, c, List.mem_cons_self, place⟩
  | case5 c rest x t _ text obstacle =>
      rw [findSome?_obstacle (fun d hd => mono d (by simp [hd]))] at obstacle
      cases obstacle
  | case6 c rest x t binds _ ih =>
      have monoRest : ∀ d ∈ rest, d.Mono := fun d hd => mono d (by simp [hd])
      have monoRule : t.Mono := bind_mono binds (mono c (by simp))
      cases bind_eq_error.1 h with
      | inl failed =>
          obtain ⟨evident, d, hd, place⟩ := ih (substAll_mono monoRule monoRest) failed
          obtain ⟨old, ho, rfl⟩ := List.mem_map.1 hd
          exact ⟨evident, old, List.mem_cons_of_mem c ho, place⟩
      | inr late =>
          obtain ⟨_, _, absurd⟩ := late
          cases absurd

/-- Every equation with one rule after another pushed in, oldest first. -/
def pushAll (rules : List Rule) (cs : List Constraint) : List Constraint :=
  rules.foldl (fun cs rule => substAll rule.1 rule.2 cs) cs

theorem pushAll_mono {rules : List Rule} (h : ∀ rule ∈ rules, rule.2.Mono) {cs : List Constraint}
    (mono : ∀ c ∈ cs, c.Mono) : ∀ c ∈ pushAll rules cs, c.Mono := by
  induction rules generalizing cs with
  | nil => exact mono
  | cons rule rules ih =>
      exact ih (fun other ho => h other (by simp [ho])) (substAll_mono (h rule (by simp)) mono)

theorem origin_of_mem_pushAll {rules : List Rule} {cs : List Constraint} {d : Constraint}
    (h : d ∈ pushAll rules cs) : ∃ c ∈ cs, d.origin = c.origin := by
  induction rules generalizing cs with
  | nil => exact ⟨d, h, rfl⟩
  | cons rule rules ih =>
      obtain ⟨c, hc, same⟩ := ih h
      obtain ⟨old, ho, rfl⟩ := List.mem_map.1 hc
      exact ⟨old, ho, same⟩

theorem pass_append {cs ds : List Constraint} (mono : ∀ c ∈ cs, c.Mono)
    (monoNext : ∀ d ∈ ds, d.Mono) :
    pass (cs ++ ds) = (do
      let rules ← pass cs
      let later ← pass (pushAll rules ds)
      return rules ++ later) := by
  fun_induction pass cs generalizing ds with
  | case1 =>
      change pass ds = (pass ds >>= fun later => pure ([] ++ later))
      simp
  | case2 c rest discarded ih =>
      rw [List.cons_append, pass_discard discarded]
      exact ih (fun d hd => mono d (by simp [hd])) monoNext
  | case3 c rest a b splits ih =>
      rw [List.cons_append, pass_split splits]
      exact ih (split_mono splits mono) monoNext
  | case4 c rest fault refused =>
      rw [List.cons_append, pass_refuse refused]
      rfl
  | case5 c rest x t _ text obstacle =>
      rw [findSome?_obstacle (fun d hd => mono d (by simp [hd]))] at obstacle
      cases obstacle
  | case6 c rest x t binds _ ih =>
      have monoRest : ∀ d ∈ rest, d.Mono := fun d hd => mono d (by simp [hd])
      have monoRule : t.Mono := bind_mono binds (mono c (by simp))
      have clear : (rest ++ ds).findSome? (Constraint.obstacle x) = none :=
        findSome?_obstacle (List.forall_mem_append.2 ⟨monoRest, monoNext⟩) x
      have parts : substAll x t (rest ++ ds) = substAll x t rest ++ substAll x t ds :=
        List.map_append
      rw [List.cons_append, pass_bind binds clear, parts,
        ih (substAll_mono monoRule monoRest) (substAll_mono monoRule monoNext)]
      simp [pushAll]

theorem exists_first_refused {cs : List Constraint} {fault : Fault} (mono : ∀ c ∈ cs, c.Mono)
    (h : pass cs = .error fault) :
    ∃ before c after rules, cs = before ++ c :: after ∧ pass before = .ok rules ∧
      pass (before ++ [c]) = .error fault := by
  induction cs using List.reverseRecOn with
  | nil =>
      rw [pass] at h
      cases h
  | append_singleton init last ih =>
      obtain ⟨monoInit, monoLast⟩ := List.forall_mem_append.1 mono
      cases first : pass init with
      | ok rules => exact ⟨init, last, [], rules, rfl, first, h⟩
      | error earlier =>
          have same : pass (init ++ [last]) = .error earlier := by
            rw [pass_append monoInit monoLast, first]
            rfl
          rw [same] at h
          cases h
          obtain ⟨before, c, after, rules, rfl, passes, refused⟩ := ih monoInit first
          exact ⟨before, c, after ++ [last], rules, by simp, passes, refused⟩

theorem place_of_refused {before : List Constraint} {c : Constraint} {rules : List Rule}
    {fault : Fault} (mono : ∀ d ∈ before, d.Mono) (monoLast : c.Mono)
    (passes : pass before = .ok rules) (refused : pass (before ++ [c]) = .error fault) :
    fault.Evident ∧ fault.place = c.origin := by
  have monoNext : ∀ d ∈ [c], d.Mono := by simpa using monoLast
  rw [pass_append mono monoNext, passes] at refused
  have late : pass (pushAll rules [c]) = .error fault := by
    cases bind_eq_error.1 refused with
    | inl none => cases none
    | inr next =>
        obtain ⟨_, ⟨⟩, next⟩ := next
        cases bind_eq_error.1 next with
        | inl failed => exact failed
        | inr done =>
            obtain ⟨_, _, absurd⟩ := done
            cases absurd
  have monoRules : ∀ rule ∈ rules, rule.2.Mono := (pass_triangular mono passes).mono
  obtain ⟨evident, d, hd, place⟩ :=
    pass_error_evident (pushAll_mono monoRules monoNext) late
  obtain ⟨old, ho, same⟩ := origin_of_mem_pushAll hd
  obtain rfl : old = c := by simpa using ho
  exact ⟨evident, place.trans same⟩

theorem exists_solves_of_pass_ok {cs : List Constraint} {rules : List Rule}
    (mono : ∀ c ∈ cs, c.Mono) (h : pass cs = .ok rules) : ∃ s : Subst, Solves s cs := by
  obtain ⟨s, solves, -⟩ := solve_of_pass_ok mono h
  exact ⟨s, (mostGeneral_of_ok mono solves).solves mono⟩

/-- A fault of solving has the place of the first equation without a solution together with those
before it, and shows two types that no solution makes equal. -/
theorem fault_blames_first_inconsistent {cs : List Constraint} (mono : ∀ c ∈ cs, c.Mono)
    {fault : Fault} (h : solve cs = .error fault) :
    fault.Evident ∧ ∃ k c, cs[k]? = some c ∧ fault.place = c.origin ∧
      IsLeast {j | j < cs.length ∧ ¬ ∃ s : Subst, Solves s (cs.take (j + 1))} k := by
  have refused : pass cs = .error fault := by
    cases found : pass cs with
    | error other =>
        rw [solve_of_pass_error found] at h
        cases h
        rfl
    | ok rules =>
        obtain ⟨s, solves, -⟩ := solve_of_pass_ok mono found
        rw [solves] at h
        cases h
  obtain ⟨before, c, after, rules, rfl, passes, fails⟩ := exists_first_refused mono refused
  have monoBefore : ∀ d ∈ before, d.Mono := fun d hd => mono d (by simp [hd])
  have monoLast : c.Mono := mono c (by simp)
  have monoFirst : ∀ d ∈ before ++ [c], d.Mono :=
    List.forall_mem_append.2 ⟨monoBefore, by simpa using monoLast⟩
  obtain ⟨evident, place⟩ := place_of_refused monoBefore monoLast passes fails
  have whole : (before ++ c :: after).take (before.length + 1) = before ++ [c] :=
    List.take_length_add_append 1
  refine ⟨evident, before.length, c, by simp, place, ⟨by simp, ?_⟩, ?_⟩
  · rw [whole]
    rintro ⟨s, solves⟩
    exact (pass_fails monoFirst fails).2 _ (solves.unifies monoFirst)
  · rintro j ⟨-, unsolvable⟩
    by_contra early
    obtain ⟨s, solves⟩ := exists_solves_of_pass_ok monoBefore passes
    refine unsolvable ⟨s, fun d hd => solves d ?_⟩
    have inside : (before ++ c :: after).take (j + 1) = before.take (j + 1) :=
      List.take_append_of_le_length (by omega)
    rw [inside] at hd
    exact List.mem_of_mem_take hd

theorem fault_blames_first_inconsistent_second :
    (∀ c ∈ [(⟨.var "a", .int, some ⟨.number 1, .number 1, 0, none⟩⟩ : Constraint),
      ⟨.arrow (.var "b") (.var "a"), .arrow .int .bool, some ⟨.number 2, .number 1, 0, none⟩⟩,
      ⟨.int, .string, some ⟨.number 3, .number 1, 0, none⟩⟩], c.Mono) ∧
    solve [⟨.var "a", .int, some ⟨.number 1, .number 1, 0, none⟩⟩,
      ⟨.arrow (.var "b") (.var "a"), .arrow .int .bool, some ⟨.number 2, .number 1, 0, none⟩⟩,
      ⟨.int, .string, some ⟨.number 3, .number 1, 0, none⟩⟩] =
        .error (.mismatch .int .bool (some ⟨.number 2, .number 1, 0, none⟩)) ∧
    IsLeast {j | j < 3 ∧ ¬ ∃ s : Subst, Solves s (List.take (j + 1)
      [⟨.var "a", .int, some ⟨.number 1, .number 1, 0, none⟩⟩,
        ⟨.arrow (.var "b") (.var "a"), .arrow .int .bool, some ⟨.number 2, .number 1, 0, none⟩⟩,
        ⟨.int, .string, some ⟨.number 3, .number 1, 0, none⟩⟩])} 1 := by
  have mono : ∀ c ∈ [(⟨.var "a", .int, some ⟨.number 1, .number 1, 0, none⟩⟩ : Constraint),
      ⟨.arrow (.var "b") (.var "a"), .arrow .int .bool, some ⟨.number 2, .number 1, 0, none⟩⟩,
      ⟨.int, .string, some ⟨.number 3, .number 1, 0, none⟩⟩], c.Mono := by decide
  have fails : solve [⟨.var "a", .int, some ⟨.number 1, .number 1, 0, none⟩⟩,
      ⟨.arrow (.var "b") (.var "a"), .arrow .int .bool, some ⟨.number 2, .number 1, 0, none⟩⟩,
      ⟨.int, .string, some ⟨.number 3, .number 1, 0, none⟩⟩] =
        .error (.mismatch .int .bool (some ⟨.number 2, .number 1, 0, none⟩)) := by cbv
  obtain ⟨-, k, c, found, place, least⟩ := fault_blames_first_inconsistent mono fails
  -- Only the second equation has the place of the fault.
  obtain _ | _ | _ | k := k
  · cases found
    simp [Fault.place] at place
  · exact ⟨mono, fails, least⟩
  · cases found
    simp [Fault.place] at place
  · simp at found

end Unify

end HindleyMilner
