import HindleyMilner.Infer.Trace
import HindleyMilner.Proofs.Termination
import Mathlib.Data.List.Forall2

/-!
Two runs side by side. Computations keep step if, from as many names taken, both succeed with
related values or both fail for the same reason, and as many names have been taken again. What a run
notes and where a fault is placed are not compared. Sequencing keeps step, so two computations do if
their parts do. Solving looks at the sides of equations and not at their places: equal equations
from different places are solved in step, whatever types they are about.
-/

namespace HindleyMilner

def Fault.unplaced : Fault → Fault
  | .unbound name _ => .unbound name none
  | .infinite name type _ => .infinite name type none
  | .mismatch left right _ => .mismatch left right none
  | .notAType text => .notAType text

inductive Agree {α β : Type} (R : α → β → Prop) : Except Fault α → Except Fault β → Prop
  | ok {a b} : R a b → Agree R (.ok a) (.ok b)
  | error {fault fault'} : Fault.unplaced fault = Fault.unplaced fault' →
      Agree R (.error fault) (.error fault')

namespace Agree

variable {α β γ δ : Type} {R : α → β → Prop} {S : γ → δ → Prop}

theorem refl (m : Except Fault α) : Agree Eq m m := by
  cases m with
  | ok a => exact .ok rfl
  | error fault => exact .error rfl

theorem bind {m : Except Fault α} {m' : Except Fault β} {f : α → Except Fault γ}
    {f' : β → Except Fault δ} (h : Agree R m m') (next : ∀ a b, R a b → Agree S (f a) (f' b)) :
    Agree S (m >>= f) (m' >>= f') := by
  cases h with
  | ok related => exact next _ _ related
  | error same => exact .error same

theorem mapM {P : γ → δ → Prop} {f : γ → Except Fault α} {f' : δ → Except Fault β} {l : List γ}
    {l' : List δ} (h : List.Forall₂ P l l') (each : ∀ c d, P c d → Agree R (f c) (f' d)) :
    Agree (List.Forall₂ R) (l.mapM f) (l'.mapM f') := by
  induction h with
  | nil => exact .ok .nil
  | cons first _ ih =>
      rw [List.mapM_cons, List.mapM_cons]
      refine (each _ _ first).bind fun _ _ related => ih.bind fun _ _ rest => ?_
      exact .ok (.cons related rest)

theorem of_map_eq {f : α → γ} {g : β → γ} {m : Except Fault α} {m' : Except Fault β}
    (h : f <$> m = g <$> m') : Agree (fun a b => f a = g b) m m' := by
  cases m with
  | ok a =>
      cases m' with
      | ok b => exact .ok (Except.ok.inj h)
      | error fault => cases h
  | error fault =>
      cases m' with
      | ok b => cases h
      | error fault' => exact .error (congrArg Fault.unplaced (Except.error.inj h))

end Agree

def SameEquations (cs ds : List Constraint) : Prop :=
  List.Forall₂ (fun c d => c.same d = true) cs ds

theorem Constraint.same_iff {c d : Constraint} :
    c.same d = true ↔ c.left = d.left ∧ c.right = d.right := by
  simp [same]

theorem SameEquations.cons {c d : Constraint} {cs ds : List Constraint} (left : c.left = d.left)
    (right : c.right = d.right) (rest : SameEquations cs ds) :
    SameEquations (c :: cs) (d :: ds) :=
  List.Forall₂.cons (Constraint.same_iff.2 ⟨left, right⟩) rest

theorem SameEquations.append {cs ds cs' ds' : List Constraint} (h : SameEquations cs ds)
    (h' : SameEquations cs' ds') : SameEquations (cs ++ cs') (ds ++ ds') :=
  List.rel_append h h'

namespace Unify

inductive StepsAgree : Step → Step → Prop
  | discard : StepsAgree .discard .discard
  | split {a b a' b'} : a.same a' = true → b.same b' = true →
      StepsAgree (.split a b) (.split a' b')
  | bind (x t) : StepsAgree (.bind x t) (.bind x t)
  | refuse {fault fault'} : Fault.unplaced fault = Fault.unplaced fault' →
      StepsAgree (.refuse fault) (.refuse fault')

theorem stepsAgree_solveFor (x : String) (t : Ty) (origin origin' : Option Location) :
    StepsAgree (solveFor x t origin) (solveFor x t origin') := by
  unfold solveFor
  split
  · exact .discard
  · split
    · exact .refuse rfl
    · exact .bind x t

theorem stepsAgree_of_same {c d : Constraint} (h : c.same d = true) :
    StepsAgree (step c) (step d) := by
  obtain ⟨left, right, origin⟩ := c
  obtain ⟨left', right', origin'⟩ := d
  obtain ⟨rfl, rfl⟩ : left = left' ∧ right = right' := Constraint.same_iff.1 h
  unfold step
  dsimp only
  split
  · split
    · exact .discard
    · exact .refuse rfl
  · exact .split (by simp [Constraint.same]) (by simp [Constraint.same])
  · exact stepsAgree_solveFor _ _ origin origin'
  · exact stepsAgree_solveFor _ _ origin origin'
  · exact .refuse rfl

theorem findSome?_obstacle_eq {cs ds : List Constraint} (h : SameEquations cs ds) (x : String) :
    ds.findSome? (Constraint.obstacle x) = cs.findSome? (Constraint.obstacle x) := by
  induction h with
  | nil => rfl
  | @cons c d _ _ same _ ih =>
      obtain ⟨left, right⟩ := Constraint.same_iff.1 same
      have first : d.obstacle x = c.obstacle x := by
        rw [Constraint.obstacle, Constraint.obstacle, left, right]
      rw [List.findSome?_cons, List.findSome?_cons, first, ih]

theorem sameEquations_substAll {cs ds : List Constraint} (h : SameEquations cs ds) (x : String)
    (t : Ty) : SameEquations (substAll x t cs) (substAll x t ds) := by
  rw [SameEquations, substAll, substAll, List.forall₂_map_left_iff, List.forall₂_map_right_iff]
  refine List.Forall₂.imp (fun c d same => ?_) h
  obtain ⟨left, right⟩ := Constraint.same_iff.1 same
  simp [Constraint.same, Constraint.subst, left, right]

theorem exists_agreeing_step {c : Constraint} {rest ds : List Constraint}
    (h : SameEquations (c :: rest) ds) {now : Step} (first : step c = now) :
    ∃ d others next, ds = d :: others ∧ step d = next ∧ StepsAgree now next ∧
      SameEquations rest others := by
  obtain ⟨d, others, same, rest, rfl⟩ := List.forall₂_cons_left_iff.1 h
  exact ⟨d, others, _, rfl, rfl, first ▸ stepsAgree_of_same same, rest⟩

theorem agree_pass {cs ds : List Constraint} (h : SameEquations cs ds) :
    Agree Eq (pass cs) (pass ds) := by
  fun_induction pass cs generalizing ds with
  | case1 =>
      cases h
      rw [pass]
      exact .ok rfl
  | case2 c rest discarded ih =>
      obtain ⟨d, others, next, rfl, taken, steps, same⟩ := exists_agreeing_step h discarded
      cases steps
      rw [pass_discard taken]
      exact ih same
  | case3 c rest a b splits ih =>
      obtain ⟨d, others, next, rfl, taken, steps, same⟩ := exists_agreeing_step h splits
      cases steps with
      | split first second =>
          rw [pass_split taken]
          exact ih (List.Forall₂.cons first (.cons second same))
  | case4 c rest fault refused =>
      obtain ⟨d, others, next, rfl, taken, steps, same⟩ := exists_agreeing_step h refused
      cases steps with
      | refuse reason =>
          rw [pass_refuse taken]
          exact .error reason
  | case5 c rest x t binds text obstacle =>
      obtain ⟨d, others, next, rfl, taken, steps, same⟩ := exists_agreeing_step h binds
      cases steps
      rw [pass_obstacle taken ((findSome?_obstacle_eq same x).trans obstacle)]
      exact .error rfl
  | case6 c rest x t binds clear ih =>
      obtain ⟨d, others, next, rfl, taken, steps, same⟩ := exists_agreeing_step h binds
      cases steps
      rw [pass_bind taken ((findSome?_obstacle_eq same x).trans clear)]
      exact (ih (sameEquations_substAll same x t)).bind fun _ _ rules => .ok (rules ▸ rfl)

theorem agree_reduce {c d : Constraint} (h : c.same d = true) (s : Subst) :
    Agree (fun c d => c.same d = true) (c.reduce s) (d.reduce s) := by
  induction s generalizing c d with
  | nil => exact .ok h
  | cons rule s ih =>
      have first : Agree (fun c d => c.same d = true) (c.replace rule.1 rule.2)
          (d.replace rule.1 rule.2) := by
        obtain ⟨left, right⟩ := Constraint.same_iff.1 h
        rw [Constraint.replace, Constraint.replace, Constraint.obstacle, Constraint.obstacle, left,
          right]
        split
        · exact .error rfl
        · exact .ok (by simp [Constraint.same, Constraint.subst, left, right])
      rw [Constraint.reduce, Constraint.reduce, List.foldlM_cons, List.foldlM_cons]
      exact first.bind fun _ _ same => ih same

theorem agree_roundsFrom (budget done : Nat) (s : Subst) {cs ds : List Constraint}
    (h : SameEquations cs ds) :
    Agree Eq (roundsFrom budget done s cs) (roundsFrom budget done s ds) := by
  induction budget generalizing done s cs ds with
  | zero => exact .ok rfl
  | succ budget ih =>
      rw [roundsFrom, roundsFrom]
      refine (agree_pass h).bind fun rules _ same => ?_
      subst same
      split
      · exact .ok rfl
      · refine (Agree.refl (merge s rules)).bind fun merged _ same => ?_
        subst same
        exact (Agree.mapM h fun _ _ same => agree_reduce same merged).bind fun _ _ reduced =>
          ih (done + 1) merged reduced

theorem agree_solve {cs ds : List Constraint} (h : SameEquations cs ds) :
    Agree Eq (solve cs) (solve ds) := by
  rw [solve, solve, solveFrom, solveFrom, h.length_eq]
  exact agree_roundsFrom _ 0 [] h

end Unify

namespace Infer

variable {α β γ δ : Type}

/-- Both have succeeded, with related values, or both have failed for the same reason, and as many
names have been taken. -/
inductive Ends (R : α → β → Prop) :
    EStateM.Result Fault Trace α → EStateM.Result Fault Trace β → Prop
  | ok {a b trace trace'} : R a b → Trace.counter trace = Trace.counter trace' →
      Ends R (.ok a trace) (.ok b trace')
  | error {fault fault' trace trace'} : Fault.unplaced fault = Fault.unplaced fault' →
      Trace.counter trace = Trace.counter trace' →
      Ends R (.error fault trace) (.error fault' trace')

def Lockstep (R : α → β → Prop) (m : Infer α) (m' : Infer β) : Prop :=
  ∀ trace trace' : Trace, trace.counter = trace'.counter → Ends R (m trace) (m' trace')

variable {R : α → β → Prop} {S : γ → δ → Prop}

theorem Lockstep.pure {a : α} {b : β} (h : R a b) : Lockstep R (pure a) (pure b) :=
  fun _ _ same => .ok h same

theorem Lockstep.throw {fault fault' : Fault} (h : fault.unplaced = fault'.unplaced) :
    Lockstep R (throw fault) (throw fault') :=
  fun _ _ same => .error h same

theorem Lockstep.bind {m : Infer α} {m' : Infer β} {f : α → Infer γ} {f' : β → Infer δ}
    (h : Lockstep R m m') (next : ∀ a b, R a b → Lockstep S (f a) (f' b)) :
    Lockstep S (m >>= f) (m' >>= f') := by
  intro trace trace' same
  change Ends S (EStateM.bind m f trace) (EStateM.bind m' f' trace')
  have first := h trace trace' same
  unfold EStateM.bind
  generalize m trace = result, m' trace' = result' at first
  cases first with
  | ok related same => exact next _ _ related _ _ same
  | error reason same => exact .error reason same

theorem Lockstep.map {m : Infer α} {m' : Infer β} {f : α → γ} {f' : β → δ} (h : Lockstep R m m')
    (each : ∀ a b, R a b → S (f a) (f' b)) : Lockstep S (f <$> m) (f' <$> m') := by
  rw [map_eq_pure_bind, map_eq_pure_bind]
  exact h.bind fun a b related => .pure (each a b related)

theorem lockstep_fresh : Lockstep Eq fresh fresh := by
  intro trace trace' same
  exact .ok (congrArg Supply.placeholder same) (congrArg (· + 1) same)

theorem lockstep_note (event event' : Event) :
    Lockstep (fun _ _ => True) (note event) (note event') :=
  fun _ _ same => .ok trivial same

theorem lockstep_get :
    Lockstep (fun trace trace' => Trace.counter trace = Trace.counter trace') get get :=
  fun _ _ same => .ok same same

theorem lockstep_lift {m : Except Fault α} {m' : Except Fault β} (h : Agree R m m') :
    Lockstep R (lift m) (lift m') := by
  cases h with
  | ok related => exact .pure related
  | error reason => exact .throw reason

theorem lockstep_instantiate (scheme : Ty) :
    Lockstep Eq (instantiate scheme) (instantiate scheme) := by
  cases scheme with
  | poly bound body =>
      rw [instantiate]
      induction bound generalizing body with
      | nil => exact .pure rfl
      | cons name bound ih =>
          rw [List.foldlM_cons]
          refine Lockstep.bind (R := Eq) ?_ fun t _ same => same ▸ ih t
          refine lockstep_fresh.bind fun placeholder _ same => ?_
          exact same ▸ lockstep_lift (.refl _)
  | prim | var | arrow | foreign => exact .pure rfl

theorem lockstep_solve {cs ds : List Constraint} (h : SameEquations cs ds) :
    Lockstep Eq (solve cs) (solve ds) := by
  refine (lockstep_lift (Unify.agree_solve h)).bind fun solution _ same => ?_
  subst same
  exact (lockstep_note _ _).bind fun _ _ _ => .pure rfl

end Infer

end HindleyMilner
