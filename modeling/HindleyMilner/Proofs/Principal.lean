import HindleyMilner.Proofs.Completeness
import HindleyMilner.Proofs.Scoping

/-!
Principal types. The type of a program is typed by the rules, and the types the rules give are its
instances. A program that the rules do not type fails with an unbound identifier, an infinite type
or a mismatch.
-/

namespace HindleyMilner

def Fault.IllTyped : Fault → Prop
  | .unbound .. | .infinite .. | .mismatch .. => True
  | .notAType _ => False

theorem Fault.Reports.illTyped {fault : Fault} {uses : List (Text × Option Location)}
    (h : fault.Reports uses) : fault.IllTyped := by
  cases fault with
  | unbound | infinite | mismatch => trivial
  | notAType => exact h.elim

theorem infer_fault {e : Program} {fault : Fault} (h : e.infer = .error fault) :
    fault.IllTyped := by
  rw [Program.infer] at h
  split at h
  · cases h
  · rename_i ran
    cases h
    exact (Program.run_reports ran).illTyped

theorem infer_mono {e : Program} {t : Ty} (h : e.infer = .ok t) : t.Mono := by
  obtain ⟨g, m, solution, generates, solves, applies⟩ := Program.infer_ok.1 h
  have bounded := generates.bounded (.nil 0)
  have general := Unify.mostGeneral_of_ok bounded.mono solves
  cases (general.solved.apply bounded.type.1).symm.trans applies
  exact bounded.type.1.assign fun x _ => general.solved.value_mono x

theorem hasType_of_infer {e : Program} {t : Ty} (h : e.infer = .ok t) {θ : Assignment}
    (hθ : θ.Mono) : HasType [] e (t.assign θ) := by
  obtain ⟨g, m, solution, generates, solves, applies⟩ := Program.infer_ok.1 h
  have bounded := generates.bounded (.nil 0)
  have general := Unify.mostGeneral_of_ok bounded.mono solves
  cases (general.solved.apply bounded.type.1).symm.trans applies
  rw [Ty.assign_assign bounded.type.1]
  exact generates.sound (.nil 0)
    (fun x => (general.solved.value_mono x).assign fun y _ => hθ y) (general.unifies_assign θ)
    (.nil _)

theorem exists_infer_of_hasType {e : Program} {u : Ty} (h : HasType [] e u) :
    ∃ t, e.infer = .ok t ∧ ∃ θ : Assignment, θ.Mono ∧ u = t.assign θ := by
  obtain ⟨g, m, η, realizes⟩ := h.realizable [] 0 .var (.nil 0) Assignment.mono_var (.nil _)
  have bounded := realizes.generates.bounded (.nil 0)
  obtain ⟨solution, solves⟩ := Unify.solve_of_unifies bounded.mono realizes.unifies
  have general := Unify.mostGeneral_of_ok bounded.mono solves
  refine ⟨_, Program.infer_ok.2 ⟨g, m, solution, realizes.generates, solves,
    general.solved.apply bounded.type.1⟩, η, realizes.mono, ?_⟩
  rw [general.assign_value realizes.unifies bounded.type.1, realizes.type]

/-- Inference succeeds exactly on the programs that the rules type, the types that the rules give
are exactly the instances of the inferred one, and a failure is a fault of the program. -/
theorem infer_principal (e : Program) :
    ((∃ t, e.infer = .ok t) ↔ ∃ u, u.Mono ∧ HasType [] e u) ∧
    (∀ t, e.infer = .ok t → t.Mono ∧
      ∀ u, HasType [] e u ↔ ∃ θ : Assignment, θ.Mono ∧ u = t.assign θ) ∧
    ∀ fault, e.infer = .error fault → fault.IllTyped := by
  refine ⟨⟨?_, ?_⟩, fun t h => ⟨infer_mono h, fun u => ⟨fun typed => ?_, ?_⟩⟩, fun _ => infer_fault⟩
  · rintro ⟨t, h⟩
    have typed := hasType_of_infer h Assignment.mono_var
    rw [Ty.assign_var] at typed
    exact ⟨t, infer_mono h, typed⟩
  · rintro ⟨u, -, typed⟩
    obtain ⟨t, h, -⟩ := exists_infer_of_hasType typed
    exact ⟨t, h⟩
  · obtain ⟨t', h', inst⟩ := exists_infer_of_hasType typed
    cases h.symm.trans h'
    exact inst
  · rintro ⟨θ, hθ, rfl⟩
    exact hasType_of_infer h hθ

end HindleyMilner
