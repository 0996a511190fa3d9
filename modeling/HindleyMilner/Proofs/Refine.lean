import HindleyMilner.Proofs.Names

/-!
Environments as generation meets them. A quantified name of such an environment is free in none of
its types, so it is in none of the equations either, and refining by a solution of the equations
cannot capture it. What is free after refining is what the solution puts for what was free before,
and generalizing over it keeps quantified names apart from free ones.
-/

namespace HindleyMilner

theorem Subst.apply_poly {s : Subst} {bound : List String} {b u : Ty}
    (clear : ∀ x ∈ bound, x ∉ s.names) (h : s.apply b = .ok u) :
    s.apply (.poly bound b) = .ok (.poly bound u) := by
  induction s generalizing u with
  | nil =>
      cases h
      rfl
  | cons rule s ih =>
      rw [apply_cons] at h ⊢
      obtain ⟨v, inner, outer⟩ := bind_eq_ok.1 h
      have outside : rule.1 ∉ bound := fun mem => clear rule.1 mem (by simp [names])
      have rest : ∀ x ∈ bound, x ∉ names s := fun x hx named =>
        clear x hx (List.mem_cons_of_mem _ named)
      refine bind_eq_ok.2 ⟨.poly bound v, ih rest inner, ?_⟩
      simp only [Ty.replace, Ty.obstacle, if_neg outside, Ty.subst] at outer ⊢
      split at outer
      · cases outer
      · cases outer
        rfl

theorem Subst.Solved.apply_scheme {s : Subst} (solved : s.Solved) {t : Ty} (scheme : t.Scheme)
    (clear : ∀ x ∈ t.quantified, x ∉ s.names) : s.apply t = .ok (t.assign s.value) := by
  cases t with
  | poly bound b =>
      have same : (fun x => if x ∈ bound then Ty.var x else s.value x) = s.value := by
        funext x
        by_cases hx : x ∈ bound
        · rw [if_pos hx, value_of_notMem (clear x hx)]
        · rw [if_neg hx]
      rw [Ty.assign, same]
      exact apply_poly clear (solved.apply scheme)
  | prim | var | arrow => exact solved.apply scheme
  | foreign => exact scheme.elim

theorem Ty.Scheme.mem_occurrences_assign {t : Ty} (scheme : t.Scheme) {θ : Assignment}
    (clear : ∀ x ∈ t.occurrences, ∀ q ∈ t.quantified, q ∉ (θ x).occurrences) {y : String} :
    y ∈ (t.assign θ).occurrences ↔ ∃ x ∈ t.occurrences, y ∈ (θ x).occurrences := by
  cases t with
  | poly bound b =>
      have mono : b.Mono := scheme
      simp only [Ty.assign, occurrences, List.mem_filter, decide_eq_true_eq] at clear ⊢
      rw [Ty.mem_occurrences_assign mono]
      constructor
      · rintro ⟨⟨x, hx, hy⟩, outside⟩
        by_cases quantified : x ∈ bound
        · simp only [if_pos quantified, occurrences, List.mem_singleton] at hy
          exact absurd (hy ▸ quantified) outside
        · rw [if_neg quantified] at hy
          exact ⟨x, ⟨hx, quantified⟩, hy⟩
      · rintro ⟨x, ⟨hx, quantified⟩, hy⟩
        refine ⟨⟨x, hx, by rwa [if_neg quantified]⟩, fun mem => ?_⟩
        exact clear x ⟨hx, quantified⟩ y mem hy
  | prim | var | arrow => exact Ty.mem_occurrences_assign scheme
  | foreign => exact scheme.elim

namespace Env

/-- A plain environment whose quantified names are free nowhere in it. -/
structure Ready (n : Nat) (env : Env) : Prop extends Plain n env where
  apart : ∀ binding ∈ env, ∀ q ∈ binding.2.quantified, q ∉ env.free

theorem Ready.nil (n : Nat) : Ready n [] :=
  ⟨.nil n, by simp⟩

theorem Ready.later {n m : Nat} {env : Env} (h : Ready n env) (le : n ≤ m) : Ready m env :=
  ⟨h.toPlain.later le, h.apart⟩

theorem Ready.extend {n : Nat} {env : Env} (h : Ready n env) {name : Text} {t : Ty}
    (plain : (env.extend name t).Plain n)
    (old : ∀ x ∈ t.occurrences, ∀ binding ∈ env, x ∉ binding.2.quantified)
    (new : ∀ q ∈ t.quantified, q ∉ env.free) : Ready n (env.extend name t) := by
  refine ⟨plain, fun binding hb q hq free => ?_⟩
  rw [mem_free_extend] at free
  cases List.mem_cons.1 hb with
  | inl equal =>
      subst equal
      exact free.elim (fun occurs => (Ty.mem_occurrences.1 occurs).2 hq) (new q hq)
  | inr mem =>
      exact free.elim (fun occurs => old q occurs binding mem hq) (h.apart binding mem q hq)

section

variable {env : Env} {n m : Nat} {e : Program}

theorem Ready.notMem_quantified (h : env.Ready n) {x : String} (drawn : Drawn env e n m x)
    {binding : Text × Ty} (hb : binding ∈ env) : x ∉ binding.2.quantified := by
  intro quantified
  cases drawn with
  | inl shown => exact h.apart binding hb x quantified shown.mem_free
  | inr within => exact h.known binding hb x (.inr quantified) within.ahead

theorem Ready.extend_mono (h : env.Ready n) {t : Ty} (le : n ≤ m)
    (drawn : DrawnType env e n m t) (name : Text) : (env.extend name t).Ready m := by
  refine (h.later le).extend (h.toPlain.drawn le drawn name)
    (fun x hx binding hb => h.notMem_quantified (drawn.2 x hx) hb) fun _ hq => ?_
  rw [drawn.1.quantified_eq] at hq
  cases hq

theorem Ready.parameter (h : env.Ready n) (name : Text) (lt : n < m) :
    (env.extend name (Supply.placeholder n)).Ready m :=
  h.extend_mono (Nat.le_of_lt lt)
    (drawnType_placeholder (e := .ident none name) (Nat.le_refl n) lt) name

theorem Ready.after (h : env.Ready n) {g : Generated} (generates : Generates env n e g m) :
    env.Ready m :=
  h.later (generates.bounded h.toPlain).le

theorem Ready.clear (h : env.Ready n) {g : Generated} (bounded : Bounded env n e g m) :
    ∀ binding ∈ env, ∀ q ∈ binding.2.quantified, q ∉ Unify.occurrences g.constraints :=
  fun _ hb _ hq occurs => h.notMem_quantified (bounded.mem_occurrences occurs) hb hq

end

section

variable {n : Nat} {env : Env} {s : Subst} {cs : List Constraint}

theorem value_apart (general : Unify.MostGeneral s cs)
    (clear : ∀ binding ∈ env, ∀ q ∈ binding.2.quantified, q ∉ Unify.occurrences cs) :
    ∀ binding ∈ env, ∀ x ∈ binding.2.occurrences, ∀ q ∈ binding.2.quantified,
      q ∉ (s.value x).occurrences := by
  intro binding hb x hx q hq occurs
  cases general.support x q occurs with
  | inl same => exact (Ty.mem_occurrences.1 hx).2 (same ▸ hq)
  | inr inside => exact clear binding hb q hq inside

theorem Plain.refine_eq (plain : env.Plain n) (general : Unify.MostGeneral s cs)
    (clear : ∀ binding ∈ env, ∀ q ∈ binding.2.quantified, q ∉ Unify.occurrences cs) :
    env.refine s = .ok (env.map fun binding => (binding.1, binding.2.assign s.value)) := by
  refine mapM_eq_ok fun binding hb => bind_eq_ok.2 ⟨_, ?_, rfl⟩
  exact general.solved.apply_scheme (plain.scheme binding hb) fun q hq named =>
    clear binding hb q hq (general.names named)

theorem Plain.refines (plain : env.Plain n) (general : Unify.MostGeneral s cs)
    (clear : ∀ binding ∈ env, ∀ q ∈ binding.2.quantified, q ∉ Unify.occurrences cs) :
    ∃ refined, env.refine s = .ok refined ∧
      ∀ y, y ∈ refined.free ↔ ∃ x ∈ env.free, y ∈ (s.value x).occurrences := by
  refine ⟨_, plain.refine_eq general clear, fun y => ?_⟩
  have apart := value_apart general clear
  simp only [mem_free, List.mem_map]
  constructor
  · rintro ⟨_, ⟨binding, hb, rfl⟩, hy⟩
    obtain ⟨x, hx, hy⟩ :=
      ((plain.scheme binding hb).mem_occurrences_assign (apart binding hb)).1 hy
    exact ⟨x, ⟨binding, hb, hx⟩, hy⟩
  · rintro ⟨x, ⟨binding, hb, hx⟩, hy⟩
    refine ⟨_, ⟨binding, hb, rfl⟩, ?_⟩
    exact ((plain.scheme binding hb).mem_occurrences_assign (apart binding hb)).2 ⟨x, hx, hy⟩

end

end Env

/-- What a `let` knows about its value once the equations of the value are solved: the solution is
most general, the environment can be refined, and what is then free is known. -/
structure Settled (env : Env) (v : Generated) (s : Subst) (refined : Env) : Prop where
  general : Unify.MostGeneral s v.constraints
  applies : s.apply v.type = .ok (v.type.assign s.value)
  refines : env.refine s = .ok refined
  free : ∀ y, y ∈ refined.free ↔ ∃ x ∈ env.free, y ∈ (s.value x).occurrences

theorem settled_of_solve {env inner : Env} {n i k : Nat} {e : Program} {v : Generated}
    {solution : Unify.Solution} (plain : env.Plain n) (ready : inner.Ready i) (sub : env ⊆ inner)
    (bounded : Bounded inner i e v k) (solves : Unify.solve v.constraints = .ok solution) :
    ∃ refined, Settled env v solution.subst refined := by
  have general := Unify.mostGeneral_of_ok bounded.mono solves
  obtain ⟨refined, refines, free⟩ := plain.refines general fun binding hb =>
    ready.clear bounded binding (sub hb)
  exact ⟨refined, general, general.solved.apply bounded.type.1, refines, free⟩

namespace Settled

variable {env refined : Env} {v : Generated} {s : Subst} (settled : Settled env v s refined)

include settled

theorem value_eq {t : Ty} (mono : t.Mono) {y : String} (hy : y ∈ (t.assign s.value).occurrences) :
    s.value y = .var y := by
  obtain ⟨x, -, hy⟩ := (Ty.mem_occurrences_assign mono).1 hy
  exact Subst.value_of_notMem fun named => settled.general.solved.notMem_value named hy

theorem free_of_mem_free {t : Ty} (mono : t.Mono) {y : String}
    (hy : y ∈ (t.assign s.value).occurrences) (free : y ∈ env.free) : y ∈ refined.free := by
  refine (settled.free y).2 ⟨y, free, ?_⟩
  rw [settled.value_eq mono hy, Ty.occurrences]
  exact List.mem_singleton_self y

/-- A solution may be changed at will where the refined environment leaves names open: solving
first and changing afterwards gives a solution again, the same on the environment. -/
theorem refit {θ κ : Assignment} (unifies : Unifies θ v.constraints)
    (agree : ∀ y ∈ refined.free, κ y = θ y) :
    Unifies (fun x => (s.value x).assign κ) v.constraints ∧
      ∀ x ∈ env.free, (s.value x).assign κ = θ x := by
  refine ⟨settled.general.unifies_assign κ, fun x hx => ?_⟩
  have same : ∀ y ∈ (s.value x).occurrences, κ y = θ y := fun y hy =>
    agree y ((settled.free y).2 ⟨x, hx, hy⟩)
  rw [Ty.assign_congr same]
  exact (settled.general.unifies_iff θ).1 unifies x

theorem ready {n k : Nat} {e : Program} (h : env.Ready n) (bounded : Bounded env n e v k)
    (name : Text) : (env.extend name (refined.generalize (v.type.assign s.value))).Ready k := by
  have drawn := bounded.solved settled.general bounded.type
  refine (h.later bounded.le).extend (h.toPlain.generalized bounded.le drawn refined name) ?_ ?_
  · intro x hx binding hb
    rw [Env.mem_occurrences_generalize drawn.1] at hx
    exact h.notMem_quantified (drawn.2 x hx.1) hb
  · intro q hq free
    rw [Env.quantified_generalize drawn.1] at hq
    exact hq.2 (settled.free_of_mem_free bounded.type.1 hq.1 free)

end Settled

section

variable {env refined : Env} {n k : Nat} {value : Program} {v : Generated} {name : Text}
  {solution : Unify.Solution} {solved : Ty}

theorem Generates.exists_settled (h : Generates env n value v k) (ready : env.Ready n)
    (solves : Unify.solve v.constraints = .ok solution) (name : Text) :
    ∃ refined, Settled env v solution.subst refined ∧
      (env.extend name (refined.generalize (v.type.assign solution.subst.value))).Ready k := by
  have bounded := h.bounded ready.toPlain
  obtain ⟨refined, settled⟩ := settled_of_solve ready.toPlain ready (fun _ => id) bounded solves
  exact ⟨refined, settled, settled.ready ready bounded name⟩

theorem Generates.exists_settled_recursive
    (h : Generates (env.extend name (Supply.placeholder n)) (n + 1) value v k)
    (ready : env.Ready n) (solves : Unify.solve v.constraints = .ok solution) :
    ∃ refined, Settled env v solution.subst refined ∧
      (env.extend name (v.type.assign solution.subst.value)).Ready k := by
  have inner := ready.parameter name (Nat.lt_succ_self n)
  have bounded := h.bounded inner.toPlain
  obtain ⟨refined, settled⟩ :=
    settled_of_solve ready.toPlain inner (List.subset_cons_self _ _) bounded solves
  have outer : Bounded env n (.letIn none name true value value) v k := bounded.recursive
  have drawn := outer.solved settled.general outer.type
  exact ⟨refined, settled, ready.extend_mono outer.le drawn name⟩

theorem Generates.settle (h : Generates env n value v k) (ready : env.Ready n)
    (solves : Unify.solve v.constraints = .ok solution)
    (refines : env.refine solution.subst = .ok refined)
    (applies : solution.subst.apply v.type = .ok solved) :
    solved = v.type.assign solution.subst.value ∧ Settled env v solution.subst refined ∧
      (env.extend name (refined.generalize solved)).Ready k := by
  obtain ⟨_, settled, readyBody⟩ := h.exists_settled ready solves name
  cases settled.refines.symm.trans refines
  cases settled.applies.symm.trans applies
  exact ⟨rfl, settled, readyBody⟩

theorem Generates.settle_recursive
    (h : Generates (env.extend name (Supply.placeholder n)) (n + 1) value v k)
    (ready : env.Ready n) (solves : Unify.solve v.constraints = .ok solution)
    (refines : env.refine solution.subst = .ok refined)
    (applies : solution.subst.apply v.type = .ok solved) :
    solved = v.type.assign solution.subst.value ∧ Settled env v solution.subst refined ∧
      (env.extend name solved).Ready k := by
  obtain ⟨_, settled, readyBody⟩ := h.exists_settled_recursive ready solves
  cases settled.refines.symm.trans refines
  cases settled.applies.symm.trans applies
  exact ⟨rfl, settled, readyBody⟩

end

end HindleyMilner
