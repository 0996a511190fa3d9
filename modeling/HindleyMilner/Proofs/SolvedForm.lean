import HindleyMilner.Constraint
import HindleyMilner.Proofs.Monotype
import Mathlib.Data.List.Nodup

/-!
Substitutions in solved form: every name has one rule, and no right-hand side mentions a name that
has a rule. On such a substitution the order of the rules does not matter: applying them from the
oldest to the newest or from the newest to the oldest is one assignment, and extending by a rule
about new names composes with the replacement.
-/

namespace HindleyMilner

theorem bind_eq_ok {ε α β : Type} {m : Except ε α} {f : α → Except ε β} {b : β} :
    (m >>= f) = .ok b ↔ ∃ a, m = .ok a ∧ f a = .ok b := by
  cases m with
  | error fault => simp [bind, Except.bind]
  | ok a => simp [bind, Except.bind]

theorem bind_eq_error {ε α β : Type} {m : Except ε α} {f : α → Except ε β} {fault : ε} :
    (m >>= f) = .error fault ↔ m = .error fault ∨ ∃ a, m = .ok a ∧ f a = .error fault := by
  cases m with
  | error other => simp [bind, Except.bind]
  | ok a => simp [bind, Except.bind]

theorem mapM_eq_ok {α β : Type} {f : α → Except Fault β} {g : α → β} {l : List α}
    (h : ∀ a ∈ l, f a = .ok (g a)) : l.mapM f = .ok (l.map g) := by
  induction l with
  | nil => rfl
  | cons a l ih =>
      have head : f a = .ok (g a) := h a (by simp)
      have tail : l.mapM f = .ok (l.map g) := ih fun b hb => h b (by simp [hb])
      rw [List.mapM_cons, head, tail]
      rfl

theorem Ty.Mono.replace {t : Ty} (mono : t.Mono) (x : String) (r : Ty) :
    t.replace x r = .ok (t.subst x r) := by
  rw [Ty.replace, mono.obstacle]

namespace Subst

def names (s : Subst) : List String :=
  s.map Prod.fst

/-- What the newest rule for a name puts in; a name without a rule stays. -/
def value (s : Subst) : Assignment :=
  fun x => (s.lookup x).getD (.var x)

structure Solved (s : Subst) : Prop where
  mono : ∀ rule ∈ s, rule.2.Mono
  distinct : s.names.Nodup
  apart : ∀ rule ∈ s, ∀ x ∈ s.names, x ∉ rule.2.occurrences

@[simp] theorem value_nil : value [] = Ty.var := rfl

theorem value_cons_self (x : String) (r : Ty) (s : Subst) : value ((x, r) :: s) x = r := by
  simp [value]

theorem value_cons_ne {x y : String} (h : y ≠ x) (r : Ty) (s : Subst) :
    value ((x, r) :: s) y = s.value y := by
  have hb : (y == x) = false := by simpa using h
  simp [value, List.lookup_cons, hb]

theorem value_of_notMem {s : Subst} {x : String} (h : x ∉ s.names) : s.value x = .var x := by
  have none : s.lookup x = none := by
    rw [List.lookup_eq_none_iff]
    intro rule hr
    have hne : x ≠ rule.1 := fun equal => h (equal ▸ List.mem_map_of_mem hr)
    simpa using hne
  simp [value, none]

theorem value_cases (s : Subst) (x : String) :
    (x, s.value x) ∈ s ∨ (x ∉ s.names ∧ s.value x = .var x) := by
  by_cases h : x ∈ s.names
  · left
    cases found : s.lookup x with
    | none =>
        rw [List.lookup_eq_none_iff] at found
        obtain ⟨rule, hr, equal⟩ := List.mem_map.1 h
        have differ := found rule hr
        simp [equal] at differ
    | some r =>
        obtain ⟨before, after, split, -⟩ := List.lookup_eq_some_iff.1 found
        have mem : (x, r) ∈ s := by simp [split]
        simpa [value, found] using mem
  · exact .inr ⟨h, value_of_notMem h⟩

theorem Solved.value_of_mem {s : Subst} (solved : s.Solved) {rule : Rule} (hr : rule ∈ s) :
    s.value rule.1 = rule.2 := by
  cases s.value_cases rule.1 with
  | inl mem => exact congrArg Prod.snd (List.inj_on_of_nodup_map solved.distinct mem hr rfl)
  | inr stays => exact absurd (List.mem_map_of_mem hr) stays.1

theorem Solved.nil : Solved [] :=
  ⟨by simp, by simp [names], by simp⟩

theorem Solved.tail {rule : Rule} {s : Subst} (h : Solved (rule :: s)) : Solved s := by
  refine ⟨fun other ho => h.mono other (by simp [ho]), (List.nodup_cons.1 h.distinct).2, ?_⟩
  intro other ho x hx
  exact h.apart other (by simp [ho]) x (List.mem_cons_of_mem _ hx)

theorem Solved.value_mono {s : Subst} (h : Solved s) (x : String) : (s.value x).Mono := by
  cases s.value_cases x with
  | inl mem => exact h.mono _ mem
  | inr stays => rw [stays.2]; trivial

theorem Solved.notMem_value {s : Subst} (h : Solved s) {x y : String} (hy : y ∈ s.names) :
    y ∉ (s.value x).occurrences := by
  cases s.value_cases x with
  | inl mem => exact h.apart _ mem y hy
  | inr stays =>
      rw [stays.2]
      simp only [Ty.occurrences, List.mem_singleton]
      exact fun equal => stays.1 (equal ▸ hy)

theorem Solved.value_value {s : Subst} (h : Solved s) (x : String) :
    (s.value x).assign s.value = s.value x := by
  have same : ∀ y ∈ (s.value x).occurrences, s.value y = .var y := fun y hy =>
    value_of_notMem fun named => h.notMem_value named hy
  rw [Ty.assign_congr same, Ty.assign_var]

/-- What all rules together put for a name, from the oldest rule to the newest. -/
def action : Subst → Assignment
  | [] => .var
  | (x, r) :: s => fun y => (action s y).subst x r

theorem apply_cons (rule : Rule) (s : Subst) (t : Ty) :
    apply (rule :: s) t = (s.apply t >>= fun u => u.replace rule.1 rule.2) := by
  simp [apply]

theorem assign_action_cons {t : Ty} (mono : t.Mono) (x : String) (r : Ty) (s : Subst) :
    (t.assign (action s)).subst x r = t.assign (action ((x, r) :: s)) := by
  rw [Ty.subst_eq_assign, Ty.assign_assign mono]
  exact Ty.assign_congr fun y _ => (Ty.subst_eq_assign (action s y) x r).symm

theorem eq_assign_action {s : Subst} {t u : Ty} (mono : t.Mono) (h : s.apply t = .ok u) :
    u = t.assign s.action := by
  induction s generalizing u with
  | nil =>
      cases h
      exact (Ty.assign_var t).symm
  | cons rule s ih =>
      rw [apply_cons] at h
      obtain ⟨v, inner, outer⟩ := bind_eq_ok.1 h
      rw [Ty.replace] at outer
      split at outer
      · cases outer
      · cases outer
        rw [ih inner, assign_action_cons mono]

theorem action_mono {s : Subst} (h : ∀ rule ∈ s, rule.2.Mono) (y : String) :
    (s.action y).Mono := by
  induction s with
  | nil => trivial
  | cons rule s ih =>
      have monoRule : rule.2.Mono := h rule (by simp)
      exact (ih fun other ho => h other (by simp [ho])).subst monoRule rule.1

theorem apply_of_mono {s : Subst} (h : ∀ rule ∈ s, rule.2.Mono) {t : Ty} (mono : t.Mono) :
    s.apply t = .ok (t.assign s.action) := by
  induction s with
  | nil =>
      rw [action, Ty.assign_var]
      rfl
  | cons rule s ih =>
      have rest : ∀ other ∈ s, other.2.Mono := fun other ho => h other (by simp [ho])
      have monoImage : (t.assign (action s)).Mono := mono.assign fun y _ => action_mono rest y
      rw [apply_cons, ← assign_action_cons mono]
      exact bind_eq_ok.2 ⟨_, ih rest, monoImage.replace rule.1 rule.2⟩

theorem Solved.action {s : Subst} (h : Solved s) : s.action = s.value := by
  induction s with
  | nil => rfl
  | cons rule s ih =>
      obtain ⟨x, r⟩ := rule
      have fresh : x ∉ names s := (List.nodup_cons.1 h.distinct).1
      funext y
      change (Subst.action s y).subst x r = value ((x, r) :: s) y
      rw [ih h.tail]
      by_cases hy : y = x
      · rw [hy, value_cons_self, value_of_notMem fresh]
        simp [Ty.subst]
      · rw [value_cons_ne hy, Ty.subst_of_notMem]
        cases value_cases s y with
        | inl mem => exact h.apart _ (List.mem_cons_of_mem _ mem) x (by simp [names])
        | inr stays => simpa [stays.2, Ty.occurrences] using fun equal => hy equal.symm

theorem Solved.apply {s : Subst} (h : Solved s) {t : Ty} (mono : t.Mono) :
    s.apply t = .ok (t.assign s.value) := by
  rw [apply_of_mono h.mono mono, h.action]

theorem Solved.foldl_subst {s : Subst} (h : Solved s) {t : Ty} (mono : t.Mono) :
    s.foldl (fun u rule => u.subst rule.1 rule.2) t = t.assign s.value := by
  induction s generalizing t with
  | nil => rw [value_nil, Ty.assign_var]; rfl
  | cons rule s ih =>
      obtain ⟨x, r⟩ := rule
      have monoRule : r.Mono := h.mono (x, r) (by simp)
      have keeps : r.assign (value s) = r := by
        have same : ∀ y ∈ r.occurrences, value s y = .var y := fun y hy =>
          value_of_notMem fun named =>
            h.apart (x, r) (by simp) y (List.mem_cons_of_mem _ named) hy
        rw [Ty.assign_congr same, Ty.assign_var]
      rw [List.foldl_cons, ih h.tail (mono.subst monoRule x), Ty.subst_eq_assign,
        Ty.assign_assign mono]
      refine Ty.assign_congr fun y _ => ?_
      by_cases hy : y = x
      · rw [hy, Function.update_self, value_cons_self, keeps]
      · rw [Function.update_of_ne hy, value_cons_ne hy, Ty.assign]

end Subst

def Constraint.Mono (c : Constraint) : Prop :=
  c.left.Mono ∧ c.right.Mono

instance (c : Constraint) : Decidable c.Mono :=
  inferInstanceAs (Decidable (c.left.Mono ∧ c.right.Mono))

namespace Constraint

theorem Mono.subst {c : Constraint} (mono : c.Mono) {r : Ty} (hr : r.Mono) (x : String) :
    (c.subst x r).Mono :=
  ⟨mono.1.subst hr x, mono.2.subst hr x⟩

theorem Mono.obstacle {c : Constraint} (mono : c.Mono) (x : String) : c.obstacle x = none := by
  rw [Constraint.obstacle, mono.1.obstacle, mono.2.obstacle]
  rfl

theorem Mono.reduce {c : Constraint} (mono : c.Mono) {s : Subst}
    (h : ∀ rule ∈ s, rule.2.Mono) :
    c.reduce s = .ok { c with
      left := s.foldl (fun u rule => u.subst rule.1 rule.2) c.left
      right := s.foldl (fun u rule => u.subst rule.1 rule.2) c.right } := by
  induction s generalizing c with
  | nil => rfl
  | cons rule s ih =>
      have next : (c.subst rule.1 rule.2).Mono := mono.subst (h rule (by simp)) rule.1
      have first : c.replace rule.1 rule.2 = .ok (c.subst rule.1 rule.2) := by
        rw [Constraint.replace, mono.obstacle]
      have rest := ih next fun other ho => h other (by simp [ho])
      rw [Constraint.reduce, List.foldlM_cons, first]
      exact rest

end Constraint

namespace Subst

theorem Solved.reduce {s : Subst} (h : Solved s) {c : Constraint} (mono : c.Mono) :
    c.reduce s = .ok { c with left := c.left.assign s.value, right := c.right.assign s.value } := by
  rw [mono.reduce h.mono, h.foldl_subst mono.1, h.foldl_subst mono.2]

theorem lookup_map_snd {κ : Type} [BEq κ] [LawfulBEq κ] (f : Ty → Ty) (s : List (κ × Ty)) (y : κ) :
    (s.map fun rule => (rule.1, f rule.2)).lookup y = (s.lookup y).map f := by
  induction s with
  | nil => rfl
  | cons rule s ih =>
      obtain ⟨z, t⟩ := rule
      by_cases h : y = z
      · simp [h]
      · have hb : (y == z) = false := by simpa using h
        simp [List.lookup_cons, hb, ih]

theorem extend_of_mono {s : Subst} (h : ∀ rule ∈ s, rule.2.Mono) (x : String) (r : Ty) :
    s.extend x r = .ok ((x, r) :: s.map fun rule => (rule.1, rule.2.subst x r)) := by
  have refined : s.mapM (fun rule => do
      let t ← rule.2.replace x r
      return (rule.1, t)) = .ok (s.map fun rule => (rule.1, rule.2.subst x r)) := by
    refine mapM_eq_ok fun rule hr => ?_
    rw [(h rule hr).replace]
    rfl
  rw [extend, refined]
  rfl

/-- A rule about a new name, whose right-hand side mentions no name that has a rule, extends a
solved form to a solved form, and acts after it. -/
theorem Solved.extend {s : Subst} (h : Solved s) {x : String} {r : Ty} (mono : r.Mono)
    (new : x ∉ s.names) (acyclic : x ∉ r.occurrences)
    (final : ∀ y ∈ s.names, y ∉ r.occurrences) :
    ∃ s', s.extend x r = .ok s' ∧ Solved s' ∧ s'.names = x :: s.names ∧
      ∀ y, s'.value y = (s.value y).subst x r := by
  have names_eq : names ((x, r) :: s.map fun rule => (rule.1, rule.2.subst x r)) =
      x :: s.names := by
    simp [names]
  refine ⟨(x, r) :: s.map fun rule => (rule.1, rule.2.subst x r), ?_, ⟨?_, ?_, ?_⟩, names_eq, ?_⟩
  · exact extend_of_mono h.mono x r
  · intro rule hr
    cases List.mem_cons.1 hr with
    | inl equal => rw [equal]; exact mono
    | inr mem =>
        obtain ⟨old, ho, rfl⟩ := List.mem_map.1 mem
        exact (h.mono old ho).subst mono x
  · rw [names_eq]
    exact List.nodup_cons.2 ⟨new, h.distinct⟩
  · rw [names_eq]
    intro rule hr y hy
    cases List.mem_cons.1 hr with
    | inl equal =>
        rw [equal]
        cases List.mem_cons.1 hy with
        | inl same => rw [same]; exact acyclic
        | inr named => exact final y named
    | inr mem =>
        obtain ⟨old, ho, rfl⟩ := List.mem_map.1 mem
        intro occurs
        cases Ty.mem_occurrences_subst occurs with
        | inl before =>
            cases List.mem_cons.1 hy with
            | inl same => exact before.2 same
            | inr named => exact h.apart old ho y named before.1
        | inr inside =>
            cases List.mem_cons.1 hy with
            | inl same => exact acyclic (same ▸ inside)
            | inr named => exact final y named inside
  · intro y
    by_cases hy : y = x
    · rw [hy, value_cons_self, value_of_notMem new]
      simp [Ty.subst]
    · rw [value_cons_ne hy, value, lookup_map_snd fun t => t.subst x r, value]
      cases s.lookup y with
      | none => simp [Ty.subst, hy]
      | some t => rfl

end Subst

end HindleyMilner
