import HindleyMilner.Proofs.Refine
import HindleyMilner.Proofs.Typing

/-!
Every solution of the generated equations is a typing. The context of the typing lies above the
environment of the run: it gives each identifier a scheme with at least the instances that the
solution allows. At a `let` the quantified names are renamed away from all names in sight, which
gives the value a type whose closure has the instances that the body asks for.
-/

namespace HindleyMilner

/-- The context has the instances that the environment gives under any assignment that agrees with
`θ` on the free names. -/
def Above (θ : Assignment) (env G : Env) : Prop :=
  ∀ x scheme, env.get? x = some scheme → ∃ wider, G.get? x = some wider ∧
    ∀ ρ : Assignment, ρ.Mono → (∀ y ∈ scheme.occurrences, ρ y = θ y) →
      Instance wider (scheme.core.assign ρ)

namespace Above

variable {θ η : Assignment} {env G : Env}

theorem nil (θ : Assignment) : Above θ [] [] := by
  intro x scheme found
  cases found

theorem congr (h : Above θ env G) (agree : ∀ y ∈ env.free, η y = θ y) : Above η env G := by
  intro x scheme found
  obtain ⟨wider, named, instances⟩ := h x scheme found
  refine ⟨wider, named, fun ρ mono same => instances ρ mono fun y hy => ?_⟩
  rw [same y hy]
  exact agree y (Env.mem_free.2 ⟨(x, scheme), Env.mem_of_get? found, hy⟩)

theorem extend (h : Above θ env G) (name : Text) {scheme wider : Ty}
    (instances : ∀ ρ : Assignment, ρ.Mono → (∀ y ∈ scheme.occurrences, ρ y = θ y) →
      Instance wider (scheme.core.assign ρ)) :
    Above θ (env.extend name scheme) (G.extend name wider) := by
  intro x found hx
  by_cases same : x = name
  · subst same
    rw [Env.get?_extend_self] at hx
    cases hx
    exact ⟨wider, Env.get?_extend_self G x wider, instances⟩
  · rw [Env.get?_extend_ne same] at hx ⊢
    exact h x found hx

theorem extend_mono (h : Above θ env G) (hθ : θ.Mono) (name : Text) {t : Ty} (mono : t.Mono) :
    Above θ (env.extend name t) (G.extend name (t.assign θ)) := by
  refine h.extend name fun ρ _ same => ?_
  rw [mono.core_eq, Ty.assign_congr same]
  exact instance_self (mono.assign fun x _ => hθ x)

end Above

/-- Renaming the names `q` of `t` away from the context before closing: the closure has every
instance that differs from `θ` at `q` only. -/
theorem instance_closure_renamed {t wider : Ty} (mono : t.Mono) {q : List String} {G : Env}
    {θ ρ : Assignment} {f : String → String} (injective : Function.Injective f)
    (outside : ∀ x, f x ∉ G.free) (apart : ∀ x ∈ t.occurrences, ∀ y, f y ∉ (θ x).occurrences)
    (inside : q ⊆ t.occurrences)
    (closure : Closure G (t.assign fun x => if x ∈ q then .var (f x) else θ x) wider)
    (hρ : ρ.Mono) (agree : ∀ x ∈ t.occurrences, x ∉ q → ρ x = θ x) :
    Instance wider (t.assign ρ) := by
  obtain ⟨back, left⟩ := injective.hasLeftInverse
  refine ⟨fun z => if back z ∈ q ∧ f (back z) = z then ρ (back z) else .var z, ?_,
    fun z hz => ?_, ?_⟩
  · exact .ite (fun z => hρ (back z)) Assignment.mono_var _
  · refine if_neg fun renamed => hz ((closure.mem_quantified z).2 ⟨?_, ?_⟩)
    · refine (Ty.mem_occurrences_assign mono).2 ⟨back z, inside renamed.1, ?_⟩
      simp [if_pos renamed.1, Ty.occurrences, renamed.2]
    · rw [← renamed.2]
      exact outside _
  · rw [closure.1, Ty.assign_assign mono]
    refine Ty.assign_congr fun x hx => ?_
    by_cases hq : x ∈ q
    · simp [Ty.assign, left x, hq]
    · have stays : ∀ z ∈ (θ x).occurrences,
          (if back z ∈ q ∧ f (back z) = z then ρ (back z) else .var z) = .var z := by
        intro z hz
        refine if_neg fun renamed => apart x hx (back z) ?_
        rw [renamed.2]
        exact hz
      rw [if_neg hq, Ty.assign_congr stays, Ty.assign_var, agree x hx hq]

theorem Settled.exists_general {env refined G : Env} {v : Generated} {s : Subst}
    (settled : Settled env v s refined) (mono : v.type.Mono) {θ : Assignment} (hθ : θ.Mono)
    (unifies : Unifies θ v.constraints) :
    ∃ ψ : Assignment, ψ.Mono ∧ Unifies ψ v.constraints ∧ (∀ y ∈ env.free, ψ y = θ y) ∧
      ∀ wider, Closure G (v.type.assign ψ) wider →
        ∀ ρ : Assignment, ρ.Mono →
          (∀ y ∈ (refined.generalize (v.type.assign s.value)).occurrences, ρ y = θ y) →
          Instance wider ((v.type.assign s.value).assign ρ) := by
  have solvedMono : (v.type.assign s.value).Mono :=
    mono.assign fun x _ => settled.general.solved.value_mono x
  let avoid := G.free ++ (v.type.assign s.value).occurrences.flatMap fun x => (θ x).occurrences
  let f := lengthen avoid
  have avoids : ∀ x, f x ∉ avoid := lengthen_notMem avoid
  let q := (refined.generalize (v.type.assign s.value)).quantified
  have hq : ∀ x, x ∈ q ↔ x ∈ (v.type.assign s.value).occurrences ∧ x ∉ refined.free :=
    Env.quantified_generalize solvedMono refined
  have agree : ∀ y ∈ refined.free, (if y ∈ q then .var (f y) else θ y) = θ y := fun y hy =>
    if_neg fun mem => ((hq y).1 mem).2 hy
  have names : Assignment.Mono fun y => .var (f y) := fun _ => trivial
  have opened : Assignment.Mono fun y => if y ∈ q then .var (f y) else θ y := names.ite hθ _
  have refitted := settled.refit unifies agree
  refine ⟨_, fun x => ?_, refitted.1, refitted.2, fun wider closure ρ hρ same => ?_⟩
  · exact (settled.general.solved.value_mono x).assign fun y _ => opened y
  · rw [← Ty.assign_assign mono] at closure
    refine instance_closure_renamed solvedMono (lengthen_injective avoid) (fun x mem => avoids x ?_)
      (fun x hx y hy => avoids y ?_) (fun x mem => ((hq x).1 mem).1) closure hρ fun x hx mem => ?_
    · exact List.mem_append_left _ mem
    · exact List.mem_append_right _ (List.mem_flatMap.2 ⟨x, hx, hy⟩)
    · refine same x ((Env.mem_occurrences_generalize solvedMono refined x).2 ⟨hx, ?_⟩)
      by_contra notFree
      exact mem ((hq x).2 ⟨hx, notFree⟩)

theorem HasType.binary {G : Env} {op : Operator} {place : Option Location} {left right : Program}
    {l r : Ty} {θ : Assignment} (unifies : Unifies θ (op.typing place l r).2)
    (hl : HasType G left (l.assign θ)) (hr : HasType G right (r.assign θ)) :
    HasType G (.binary place op left right) ((op.typing place l r).1.assign θ) := by
  cases category : op.category with
  | comparison =>
      simp only [Operator.typing, category, Operator.Category.operand?, unifies_cons] at unifies ⊢
      rw [unifies.1] at hl
      exact .comparison category hl hr
  | arithmetic =>
      simp only [Operator.typing, category, Operator.Category.operand?, unifies_cons] at unifies ⊢
      rw [unifies.1] at hl
      rw [unifies.2.1] at hr
      exact .arithmetic category hl hr
  | concatenation =>
      simp only [Operator.typing, category, Operator.Category.operand?, unifies_cons] at unifies ⊢
      rw [unifies.1] at hl
      rw [unifies.2.1] at hr
      exact .concatenation category hl hr
  | logical =>
      simp only [Operator.typing, category, Operator.Category.operand?, unifies_cons] at unifies ⊢
      rw [unifies.1] at hl
      rw [unifies.2.1] at hr
      exact .logical category hl hr

theorem Generates.sound {env : Env} {n m : Nat} {e : Program} {g : Generated}
    (h : Generates env n e g m) {G : Env} {θ : Assignment} (ready : env.Ready n) (hθ : θ.Mono)
    (unifies : Unifies θ g.constraints) (above : Above θ env G) :
    HasType G e (g.type.assign θ) := by
  induction h generalizing G θ with
  | int => exact .int
  | bool => exact .bool
  | str => exact .str
  | @ident env n place name scheme t found placed =>
      rw [ready.toPlain.instanceAt found] at placed
      cases placed
      obtain ⟨wider, named, instances⟩ := above name scheme found
      have mono : scheme.core.Mono := ready.scheme _ (Env.mem_of_get? found)
      refine .ident named ?_
      change Instance wider ((scheme.core.assign (Ty.freshen n scheme.quantified)).assign θ)
      rw [Ty.assign_assign mono]
      refine instances _ (fun x => (Ty.freshen_mono n _ x).assign fun y _ => hθ y) fun y hy => ?_
      rw [Ty.freshen_of_notMem (Ty.mem_occurrences.1 hy).2, Ty.assign]
  | @func env n place parameter body g m _ ih =>
      simp only [unifies_append, unifies_cons] at unifies
      have domain : (Supply.placeholder n).Mono := trivial
      have typed := ih (ready.parameter parameter (by omega)) hθ unifies.1
        (above.extend_mono hθ parameter domain)
      rw [unifies.2.1] at typed
      exact .func (hθ _) typed
  | not _ ih =>
      simp only [unifies_append, unifies_cons] at unifies
      have typed := ih ready hθ unifies.1 above
      rw [unifies.2.1] at typed
      exact .not typed
  | binary left _ ihl ihr =>
      simp only [unifies_append] at unifies
      exact .binary unifies.2 (ihl ready hθ unifies.1.1 above)
        (ihr (ready.after left) hθ unifies.1.2 above)
  | cond test yes _ iht ihy ihn =>
      simp only [unifies_append, unifies_cons] at unifies
      have readyYes := ready.after test
      have typedTest := iht ready hθ unifies.1.1.1 above
      have typedYes := ihy readyYes hθ unifies.1.1.2 above
      have typedNo := ihn (readyYes.after yes) hθ unifies.1.2 above
      rw [unifies.2.1] at typedTest
      rw [← unifies.2.2.1] at typedNo
      exact .cond typedTest typedYes typedNo
  | call callee _ ihc iha =>
      simp only [unifies_append, unifies_cons] at unifies
      have typedCallee := ihc ready hθ unifies.1.1 above
      have typedArgument := iha (ready.after callee) hθ unifies.1.2 above
      rw [unifies.2.1] at typedCallee
      exact .call typedCallee typedArgument
  | @letPlain env n place name _ body v k solution refined solved b m value solves refines
      applies _ ihv ihb =>
      simp only [unifies_append] at unifies
      obtain ⟨rfl, settled, readyBody⟩ := value.settle ready solves refines applies
      have mono := (value.bounded ready.toPlain).type.1
      obtain ⟨ψ, hψ, solvesValue, agree, instances⟩ :=
        settled.exists_general (G := G) mono hθ unifies.1
      -- The value is typed under `ψ`, which may be more general than `θ`; the body stays under `θ`.
      have typed := ihv ready hψ solvesValue (above.congr agree)
      have closure := closure_generalize (mono.assign fun x _ => hψ x) G
      refine .letPlain typed closure (ihb readyBody hθ unifies.2 ?_)
      refine above.extend name fun ρ hρ same => ?_
      rw [Env.core_generalize (mono.assign fun x _ => settled.general.solved.value_mono x)]
      exact instances _ closure ρ hρ same
  | @letRec env n place name _ body v k solution refined solved b m value solves refines
      applies _ ihv ihb =>
      simp only [unifies_append] at unifies
      obtain ⟨rfl, settled, readyBody⟩ := value.settle_recursive ready solves refines applies
      have inner := ready.parameter name (Nat.lt_succ_self n)
      have mono := (value.bounded inner.toPlain).type.1
      have self : (Supply.placeholder n).Mono := trivial
      have typed := ihv inner hθ unifies.1 (above.extend_mono hθ name self)
      have aboveBody := above.extend_mono hθ name
        (mono.assign fun x _ => settled.general.solved.value_mono x)
      rw [settled.general.assign_value unifies.1 mono] at aboveBody
      exact .letRec (hθ _) typed (ihb readyBody hθ unifies.2 aboveBody)

end HindleyMilner
