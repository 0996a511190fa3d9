import HindleyMilner.Proofs.Capture

/-!
Generalizing leaves out every name that is free anywhere in the environment, also in bindings that
are shadowed and in bindings of identifiers that the value does not use. Such bindings hold nothing
back. A placeholder that is left in the solved type of the value and is free in the refined
environment came in through the innermost binding of an identifier that occurs free in the value:
all other names of the value are new, and its equations say nothing about the rest of the
environment.
-/

namespace HindleyMilner

namespace Env

/-- The innermost binding of each of the names, in the order of the environment. -/
def visible (names : List Text) : Env → Env
  | [] => []
  | (x, t) :: env =>
      if x ∈ names then (x, t) :: visible (names.filter (· ≠ x)) env else visible names env

theorem mem_visible {names : List Text} {env : Env} {x : Text} {t : Ty} :
    (x, t) ∈ env.visible names ↔ x ∈ names ∧ env.get? x = some t := by
  induction env generalizing names with
  | nil => simp [visible, get?]
  | cons binding env ih =>
      obtain ⟨y, u⟩ := binding
      by_cases same : x = y
      · subst same
        have own : get? ((x, u) :: env) x = some u := get?_extend_self env x u
        rw [own, visible]
        by_cases named : x ∈ names
        · simp [named, ih, eq_comm]
        · simp [named, ih]
      · have other : get? ((y, u) :: env) x = get? env x := get?_extend_ne same u
        rw [other, visible]
        by_cases named : y ∈ names
        · simp [named, ih, same]
        · simp [named, ih]

theorem generalize_eq_of_free {env env' : Env} {t : Ty}
    (same : ∀ x ∈ t.occurrences, x ∈ env.free ↔ x ∈ env'.free) :
    env.generalize t = env'.generalize t := by
  have left : t.free.filter (· ∉ env.free) = t.free.filter (· ∉ env'.free) :=
    List.filter_congr fun x hx => by simp only [same x (Ty.mem_free.1 hx)]
  simp only [generalize, left]

theorem Ready.get?_refined {env refined : Env} {n : Nat} (ready : env.Ready n) {s : Subst}
    {cs : List Constraint} (general : Unify.MostGeneral s cs)
    (clear : ∀ binding ∈ env, ∀ q ∈ binding.2.quantified, q ∉ Unify.occurrences cs)
    (refines : env.refine s = .ok refined) {x : Text} {t : Ty} (found : env.get? x = some t) :
    refined.get? x = some (t.assign s.value) ∧
      ∀ y ∈ t.occurrences, (s.value y).occurrences ⊆ (t.assign s.value).occurrences := by
  rw [ready.toPlain.refine_eq general clear] at refines
  cases refines
  have bound := mem_of_get? found
  refine ⟨?_, fun y hy z hz => ?_⟩
  · rw [get?, Subst.lookup_map_snd fun t => t.assign s.value]
    exact congrArg (Option.map _) found
  · have apart := value_apart general clear _ bound
    exact ((ready.scheme _ bound).mem_occurrences_assign apart).2 ⟨y, hy, hz⟩

end Env

section

variable {env refined : Env} {n k : Nat} {value : Program} {v : Generated} {s : Subst}

theorem Settled.shows (settled : Settled env v s refined) (ready : env.Ready n)
    (bounded : Bounded env n value v k) {x y : String}
    (left : x ∈ (v.type.assign s.value).occurrences) (free : y ∈ env.free)
    (becomes : x ∈ (s.value y).occurrences) : env.Shows value y := by
  have drawn : Drawn env value n k y := by
    by_cases named : y ∈ s.names
    · exact bounded.mem_occurrences (settled.general.names named)
    · rw [Subst.value_of_notMem named, Ty.occurrences, List.mem_singleton] at becomes
      subst becomes
      exact (bounded.solved settled.general bounded.type).2 x left
  cases drawn with
  | inl shown => exact shown
  | inr within => exact absurd within.ahead (ready.free_known free)

theorem Settled.mem_free_visible (settled : Settled env v s refined) (ready : env.Ready n)
    (bounded : Bounded env n value v k) {x : String}
    (left : x ∈ (v.type.assign s.value).occurrences) :
    x ∈ refined.free ↔ x ∈ (refined.visible value.freeNames).free := by
  constructor
  · intro free
    obtain ⟨y, hy, becomes⟩ := (settled.free x).1 free
    obtain ⟨z, used, t, found, occurs⟩ := settled.shows ready bounded left hy becomes
    obtain ⟨refound, inside⟩ :=
      ready.get?_refined settled.general (ready.clear bounded) settled.refines found
    exact Env.mem_free.2 ⟨(z, _), Env.mem_visible.2 ⟨used, refound⟩, inside y occurs becomes⟩
  · intro free
    obtain ⟨⟨z, t⟩, seen, occurs⟩ := Env.mem_free.1 free
    exact Env.mem_free.2 ⟨(z, t), Env.mem_of_get? (Env.mem_visible.1 seen).2, occurs⟩

end

/-- At every plain `let` that a run reaches, generalizing over the refined environment is
generalizing over the innermost bindings of the identifiers that occur free in the value. -/
theorem let_generalizes_over_visible {e : Program} {env : Env} {trace after : Trace}
    {place : Option Location} {name : Text} {value body : Program}
    (reached : e.Reaches ⟨env, trace, .letIn place name false value body⟩) {v : Generated}
    (generated : generate env value trace = .ok v after) {solution : Unify.Solution}
    (solves : Unify.solve v.constraints = .ok solution) :
    ∃ refined solved, env.refine solution.subst = .ok refined ∧
      solution.subst.apply v.type = .ok solved ∧
      refined.generalize solved = (refined.visible value.freeNames).generalize solved ∧
      letScheme env false solution.subst v.type =
        .ok ((refined.visible value.freeNames).generalize solved) := by
  have ready : env.Ready trace.counter := reached.ready
  have generates := generates_of_ok generated
  have bounded := generates.bounded ready.toPlain
  obtain ⟨refined, settled, -⟩ := generates.exists_settled ready solves name
  have same := Env.generalize_eq_of_free fun x left => settled.mem_free_visible ready bounded left
  refine ⟨refined, _, settled.refines, settled.applies, same, ?_⟩
  rw [← same]
  exact letScheme_eq_ok.2 ⟨_, _, settled.refines, settled.applies, rfl⟩

/-- In `fun x -> fun x -> let k = fun z -> x in k` the outer `x` is shadowed. -/
theorem let_generalizes_over_visible_shadowed :
    let x : Text := "x"
    let value : Program := .func none "z" (.ident none x)
    let inner : Program := .letIn none "k" false value (.ident none "k")
    ∃ env trace, Program.Reaches (.func none x (.func none x inner)) ⟨env, trace, inner⟩ ∧
      env = [(x, .var "c"), (x, .var "a")] ∧
      env.refine [("c", .var "f")] = .ok [(x, .var "f"), (x, .var "a")] ∧
      Env.visible value.freeNames [(x, .var "f"), (x, .var "a")] = [(x, .var "f")] ∧
      Env.generalize [(x, .var "f"), (x, .var "a")] (.arrow (.var "e") (.var "f")) =
        Env.generalize [(x, .var "f")] (.arrow (.var "e") (.var "f")) := by
  intro x value inner
  have reached : Program.Reaches (.func none x (.func none x inner)) ⟨_, _, inner⟩ :=
    .tail (.single .func) .func
  have solves : Unify.solve [⟨.var "c", .var "f", none⟩] = .ok ⟨[("c", .var "f")], 2⟩ := by cbv
  obtain ⟨refined, solved, refines, applies, same, -⟩ :=
    let_generalizes_over_visible reached rfl solves
  have refines' : Env.refine [(x, .var "c"), (x, .var "a")] [("c", .var "f")] =
      .ok [(x, .var "f"), (x, .var "a")] := rfl
  cases refines.symm.trans refines'
  obtain rfl : .arrow (.var "e") (.var "f") = solved := Except.ok.inj applies
  exact ⟨_, _, reached, rfl, refines', rfl, same⟩

end HindleyMilner
