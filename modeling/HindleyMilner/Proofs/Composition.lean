import HindleyMilner.Proofs.Accumulated

/-!
Extending as composition. Extending a substitution pushes the new rule into every right-hand side
and puts it in front, composing only puts it in front. If the rule speaks neither of its own name
nor of a name that has a rule, both act alike, whatever the substitution is: the new rule replaces
all that is left of its name at the end, and nothing that it puts in is replaced on the way. Solving
merges no other rules.
-/

namespace HindleyMilner

namespace Ty

variable {t r : Ty} {x y : String}

theorem subst_subst_self (acyclic : x ∉ r.occurrences) (t : Ty) :
    (t.subst x r).subst x r = t.subst x r := by
  refine subst_of_notMem (fun occurs => ?_) r
  cases mem_occurrences_subst occurs with
  | inl before => exact before.2 rfl
  | inr inside => exact acyclic inside

theorem subst_comm (mono : t.Mono) (differ : x ≠ y) (clear : x ∉ r.occurrences) (q : Ty) :
    (t.subst x q).subst y r = (t.subst y r).subst x (q.subst y r) := by
  induction t with
  | prim => rfl
  | var z =>
      by_cases hx : z = x
      · simp [subst, hx, differ]
      · by_cases hy : z = y
        · simp [subst, hy, differ.symm, subst_of_notMem clear]
        · simp [subst, hx, hy]
  | arrow d c ihd ihc => simp only [subst, ihd mono.1, ihc mono.2]
  | poly | foreign => exact mono.elim

end Ty

namespace Subst

/-- A rule that can be merged: all is without quantifiers, the name has no rule yet, and the
right-hand side mentions neither the name nor one that has a rule. -/
structure Admits (s : Subst) (rule : Rule) : Prop where
  rules : ∀ old ∈ s, old.2.Mono
  mono : rule.2.Mono
  new : rule.1 ∉ s.names
  acyclic : rule.1 ∉ rule.2.occurrences
  final : ∀ x ∈ s.names, x ∉ rule.2.occurrences

variable {s : Subst} {rule : Rule}

theorem Admits.tail {old : Rule} (h : Admits (old :: s) rule) : Admits s rule where
  rules := fun other ho => h.rules other (List.mem_cons_of_mem old ho)
  mono := h.mono
  new := fun named => h.new (List.mem_cons_of_mem old.1 named)
  acyclic := h.acyclic
  final := fun x named => h.final x (List.mem_cons_of_mem old.1 named)

def pushed (s : Subst) (rule : Rule) : Subst :=
  s.map fun old => (old.1, old.2.subst rule.1 rule.2)

theorem Admits.pushed_mono (h : s.Admits rule) : ∀ old ∈ s.pushed rule, old.2.Mono :=
  fun old ho => push_mono h.rules h.mono old (List.mem_cons_of_mem rule ho)

theorem Admits.action_pushed (h : s.Admits rule) (y : String) :
    ((s.pushed rule).action y).subst rule.1 rule.2 = (s.action y).subst rule.1 rule.2 := by
  induction s with
  | nil => rfl
  | cons old s ih =>
      have differ : old.1 ≠ rule.1 := fun same => h.new (same ▸ List.mem_cons_self)
      have clear : old.1 ∉ rule.2.occurrences := h.final old.1 List.mem_cons_self
      -- On both sides the new rule moves before the old one, where the induction applies.
      calc ((action (pushed s rule) y).subst old.1 (old.2.subst rule.1 rule.2)).subst rule.1 rule.2
          = ((action (pushed s rule) y).subst rule.1 rule.2).subst old.1
              ((old.2.subst rule.1 rule.2).subst rule.1 rule.2) :=
            Ty.subst_comm (action_mono h.tail.pushed_mono y) differ clear _
        _ = ((action s y).subst rule.1 rule.2).subst old.1 (old.2.subst rule.1 rule.2) := by
            rw [ih h.tail, Ty.subst_subst_self h.acyclic]
        _ = ((action s y).subst old.1 old.2).subst rule.1 rule.2 :=
            (Ty.subst_comm (action_mono h.tail.rules y) differ clear old.2).symm

theorem Admits.apply_push (h : s.Admits rule) {t : Ty} (mono : t.Mono) :
    (s.push rule).apply t = apply (rule :: s) t := by
  have old : ∀ other ∈ rule :: s, other.2.Mono := List.forall_mem_cons.2 ⟨h.mono, h.rules⟩
  have new : ∀ other ∈ s.push rule, other.2.Mono := push_mono h.rules h.mono
  have same : (s.push rule).action = action (rule :: s) := funext h.action_pushed
  rw [apply_of_mono new mono, apply_of_mono old mono, same]

end Subst

namespace Unify

/-- While solving `cs` from `start`, the rule is merged into `s`: in this round, after the rules
that its pass found before it, or in a later one. -/
inductive Merges : Subst → List Constraint → Subst → Rule → Prop
  | now {start cs earlier rule later s} :
      pass cs = .ok (earlier ++ rule :: later) → merge start earlier = .ok s →
      Merges start cs s rule
  | next {start cs merged reduced s rule} :
      round (start, cs) = .again (merged, reduced) → Merges merged reduced s rule →
      Merges start cs s rule

variable {rule : Rule}

theorem Merges.first {start s : Subst} {cs : List Constraint} (h : Merges start cs s rule) :
    ∃ earlier later, pass cs = .ok (earlier ++ rule :: later) ∧ merge start earlier = .ok s := by
  induction h with
  | now found merges => exact ⟨_, _, found, merges⟩
  | next again _ ih =>
      obtain ⟨earlier, later, found, -⟩ := ih
      exact absurd (no_rule_after_round again found) (by simp)

theorem Triangular.split {earlier later : List Rule}
    (h : Triangular (earlier ++ rule :: later)) :
    Triangular earlier ∧ rule.2.Mono ∧ rule.1 ∉ rule.2.occurrences ∧
      ∀ old ∈ earlier, rule.1 ≠ old.1 ∧ old.1 ∉ rule.2.occurrences := by
  induction earlier with
  | nil => exact ⟨trivial, h.1, h.2.1, by simp⟩
  | cons first earlier ih =>
      obtain ⟨mono, acyclic, others, triangular⟩ := h
      obtain ⟨before, monoRule, acyclicRule, apart⟩ := ih triangular
      refine ⟨⟨mono, acyclic, fun other ho => others other (by simp [ho]), before⟩, monoRule,
        acyclicRule, List.forall_mem_cons.2 ⟨others rule (by simp), apart⟩⟩

theorem Merges.admits {cs : List Constraint} (mono : ∀ c ∈ cs, c.Mono) {s : Subst}
    (h : Merges [] cs s rule) : s.Admits rule := by
  obtain ⟨earlier, later, found, merges⟩ := h.first
  obtain ⟨triangular, monoRule, acyclic, apart⟩ := (pass_triangular mono found).split
  obtain ⟨s', merges', solved, names, -⟩ :=
    merge_triangular .nil triangular (by simp [Subst.names])
  cases merges.symm.trans merges'
  have named : ∀ x ∈ s.names, ∃ old ∈ earlier, old.1 = x := by
    intro x hx
    rw [names] at hx
    simpa [Subst.names] using hx
  refine ⟨solved.mono, monoRule, fun mem => ?_, acyclic, fun x mem => ?_⟩
  · obtain ⟨old, ho, same⟩ := named _ mem
    exact (apart old ho).1 same.symm
  · obtain ⟨old, ho, rfl⟩ := named _ mem
    exact (apart old ho).2

end Unify

/-- Extending by a rule that speaks neither of its own name nor of a name with a rule acts on types
without quantifiers as composing does, and as replacing the name once the substitution has been
applied. All rules that solving merges are of this kind. -/
theorem extending_is_composing :
    (∀ (s : Subst) (rule : Rule), s.Admits rule → ∀ t : Ty, t.Mono →
      ∃ extended before after, s.extend rule.1 rule.2 = .ok extended ∧ s.apply t = .ok before ∧
        extended.apply t = .ok after ∧ (Subst.compose [rule] s).apply t = .ok after ∧
        before.replace rule.1 rule.2 = .ok after) ∧
    ∀ cs : List Constraint, (∀ c ∈ cs, c.Mono) → ∀ (s : Subst) (rule : Rule),
      Unify.Merges [] cs s rule → s.Admits rule := by
  refine ⟨fun s rule admits t mono => ?_, fun cs mono s rule => Unify.Merges.admits mono⟩
  have applies := Subst.apply_of_mono admits.rules mono
  have image : (t.assign s.action).Mono := mono.assign fun y _ => Subst.action_mono admits.rules y
  have replaces := image.replace rule.1 rule.2
  have composes : Subst.apply (rule :: s) t = .ok ((t.assign s.action).subst rule.1 rule.2) := by
    rw [Subst.apply_cons]
    exact bind_eq_ok.2 ⟨_, applies, replaces⟩
  exact ⟨s.push rule, _, _, Subst.extend_of_mono admits.rules rule.1 rule.2, applies,
    (admits.apply_push mono).trans composes, composes, replaces⟩

theorem extending_is_composing_third :
    let cs : List Constraint := [⟨.var "a", .arrow (.var "b") (.var "c"), none⟩,
      ⟨.var "b", .arrow (.var "c") (.var "c"), none⟩, ⟨.int, .var "c", none⟩]
    let s : Subst := [("b", .arrow (.var "c") (.var "c")),
      ("a", .arrow (.arrow (.var "c") (.var "c")) (.var "c"))]
    (∀ c ∈ cs, c.Mono) ∧ Unify.Merges [] cs s ("c", .int) ∧ s.Admits ("c", .int) ∧
      ∃ extended before after, s.extend "c" .int = .ok extended ∧ s.apply (.var "a") = .ok before ∧
        extended.apply (.var "a") = .ok after ∧
        (Subst.compose [("c", .int)] s).apply (.var "a") = .ok after ∧
        before.replace "c" .int = .ok after := by
  intro cs s
  have mono : ∀ c ∈ cs, c.Mono := by decide
  have found : Unify.pass cs = .ok ([("a", .arrow (.var "b") (.var "c")),
      ("b", .arrow (.var "c") (.var "c"))] ++ ("c", .int) :: []) := by cbv
  have merges : Unify.Merges [] cs s ("c", .int) := .now found (by cbv)
  have admits := extending_is_composing.2 cs mono s _ merges
  exact ⟨mono, merges, admits, extending_is_composing.1 s _ admits (.var "a") trivial⟩

-- Each condition on the names is needed. Here the name has a rule already.
example : (Subst.extend [("n", .int), ("x", .var "n")] "n" .bool >>= (·.apply (.var "x"))) =
      .ok .bool ∧
    (Subst.compose [("n", .bool)] [("n", .int), ("x", .var "n")]).apply (.var "x") = .ok .int := by
  cbv

-- Here it occurs in its own right-hand side, and is replaced twice.
example : (Subst.extend [("x", .var "n")] "n" (.arrow .int (.var "n")) >>= (·.apply (.var "x"))) =
      .ok (.arrow .int (.arrow .int (.var "n"))) ∧
    (Subst.compose [("n", .arrow .int (.var "n"))] [("x", .var "n")]).apply (.var "x") =
      .ok (.arrow .int (.var "n")) := by
  cbv

-- Here a name with a rule occurs there, and is replaced on the way.
example : (Subst.extend [("y", .int), ("x", .var "n")] "n" (.var "y") >>= (·.apply (.var "x"))) =
      .ok .int ∧
    (Subst.compose [("n", .var "y")] [("y", .int), ("x", .var "n")]).apply (.var "x") =
      .ok (.var "y") := by
  cbv

end HindleyMilner
