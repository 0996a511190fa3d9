import HindleyMilner.Proofs.Principal
import Mathlib.Logic.Relation

/-!
A run captures nothing. Replacing a placeholder goes below quantifiers without renaming them, and
instantiating replaces the quantified names one after the other, so both depend on names being
apart. In every call of generation that a run makes, be it one that fails later, the quantified
names of the environment are free nowhere in it and do not come from the supply again. They are in
none of the equations of a `let` and in no rule of their solution, so refining the environment is
capture-avoiding, and instantiating is one simultaneous replacement.
-/

namespace HindleyMilner

namespace Ty

def binders : Ty → List String
  | prim _ | var _ | foreign _ => []
  | arrow d c => d.binders ++ c.binders
  | poly bound b => bound ++ b.binders

theorem Mono.binders_eq {t : Ty} (mono : t.Mono) : t.binders = [] := by
  induction t with
  | prim | var => rfl
  | arrow d c ihd ihc => rw [binders, ihd mono.1, ihc mono.2, List.append_nil]
  | poly | foreign => exact mono.elim

theorem Mono.mentions_eq_false {t : Ty} (mono : t.Mono) {x : String} (h : x ∉ t.occurrences) :
    t.mentions x = false := by
  rw [Bool.eq_false_iff]
  exact mt mono.mentions_iff.1 h

theorem Scheme.binders_eq {t : Ty} (scheme : t.Scheme) : t.binders = t.quantified := by
  cases t with
  | poly bound b =>
      have mono : b.Mono := scheme
      rw [binders, mono.binders_eq, List.append_nil, quantified]
  | prim | var | arrow => exact Mono.binders_eq scheme
  | foreign => exact scheme.elim

/-- New names for bound ones, if one of these would capture an incoming name. -/
def rebind (bound incoming : List String) : String → String :=
  if ∃ q ∈ bound, q ∈ incoming then lengthen incoming else id

theorem rebind_notMem {bound incoming : List String} {q : String} (h : q ∈ bound) :
    rebind bound incoming q ∉ incoming := by
  unfold rebind
  split
  · exact lengthen_notMem incoming q
  · rename_i apart
    exact fun mem => apart ⟨q, h, mem⟩

/-- Puts `θ x` for every free placeholder `x` at once, and renames what would capture a name. -/
def assignApart (θ : Assignment) : Ty → Ty
  | prim p => prim p
  | var x => θ x
  | arrow d c => arrow (d.assignApart θ) (c.assignApart θ)
  | poly bound b =>
      let f := rebind bound ((poly bound b).occurrences.flatMap fun x => (θ x).occurrences)
      poly (bound.map f) (b.assignApart fun x => if x ∈ bound then var (f x) else θ x)
  | foreign s => foreign s

theorem mem_occurrences_assignApart {t : Ty} {θ : Assignment} {y : String} :
    y ∈ (t.assignApart θ).occurrences ↔ ∃ x ∈ t.occurrences, y ∈ (θ x).occurrences := by
  induction t generalizing θ with
  | prim | foreign => simp [assignApart, occurrences]
  | var x => simp [assignApart, occurrences]
  | arrow d c ihd ihc => simp [assignApart, occurrences, ihd, ihc, or_and_right, exists_or]
  | poly bound b ih =>
      simp only [assignApart]
      generalize incoming : ((poly bound b).occurrences.flatMap fun x => (θ x).occurrences) = names
      have arrives : ∀ x ∈ b.occurrences, x ∉ bound → (θ x).occurrences ⊆ names := by
        intro x hx quantified z hz
        rw [← incoming]
        exact List.mem_flatMap.2 ⟨x, by simp [occurrences, hx, quantified], hz⟩
      simp only [occurrences, List.mem_filter, decide_eq_true_eq, ih]
      constructor
      · rintro ⟨⟨x, hx, hy⟩, outside⟩
        by_cases quantified : x ∈ bound
        · simp only [if_pos quantified, occurrences, List.mem_singleton] at hy
          exact absurd (hy ▸ List.mem_map_of_mem quantified) outside
        · rw [if_neg quantified] at hy
          exact ⟨x, ⟨hx, quantified⟩, hy⟩
      · rintro ⟨x, ⟨hx, quantified⟩, hy⟩
        refine ⟨⟨x, hx, by rwa [if_neg quantified]⟩, fun mem => ?_⟩
        obtain ⟨q, hq, rfl⟩ := List.mem_map.1 mem
        exact rebind_notMem hq (arrives x hx quantified hy)

theorem Mono.assignApart_eq {t : Ty} (mono : t.Mono) (θ : Assignment) :
    t.assignApart θ = t.assign θ := by
  induction t with
  | prim | var => rfl
  | arrow d c ihd ihc => rw [assignApart, ihd mono.1, ihc mono.2, Ty.assign]
  | poly | foreign => exact mono.elim

theorem Scheme.assignApart_eq {t : Ty} (scheme : t.Scheme) {θ : Assignment}
    (clear : ∀ x ∈ t.occurrences, ∀ q ∈ t.quantified, q ∉ (θ x).occurrences) :
    t.assignApart θ = t.assign θ := by
  cases t with
  | poly bound b =>
      have mono : b.Mono := scheme
      have same : rebind bound ((poly bound b).occurrences.flatMap fun x => (θ x).occurrences) =
          id := by
        refine if_neg ?_
        rintro ⟨q, hq, incoming⟩
        obtain ⟨x, hx, occurs⟩ := List.mem_flatMap.1 incoming
        exact clear x hx q hq occurs
      simp only [assignApart, same, List.map_id, id, mono.assignApart_eq, Ty.assign]
  | prim | var | arrow => exact Mono.assignApart_eq scheme θ
  | foreign => exact scheme.elim

end Ty

structure Call where
  env : Env
  trace : Trace
  expr : Program

/-- The calls that a call makes itself. A later one is made only if the earlier ones succeed, and
the body of a `let` only if the equations of the value are solved. -/
inductive Calls : Call → Call → Prop
  | func {env trace place parameter body} :
      Calls ⟨env, trace, .func place parameter body⟩
        ⟨env.extend parameter (Supply.placeholder trace.counter),
          { trace with counter := trace.counter + 2 }, body⟩
  | not {env trace place operand} :
      Calls ⟨env, trace, .not place operand⟩ ⟨env, trace, operand⟩
  | left {env trace place op left right} :
      Calls ⟨env, trace, .binary place op left right⟩ ⟨env, trace, left⟩
  | right {env trace place op left right l after} :
      generate env left trace = .ok l after →
      Calls ⟨env, trace, .binary place op left right⟩ ⟨env, after, right⟩
  | test {env trace place test yes no} :
      Calls ⟨env, trace, .cond place test yes no⟩ ⟨env, trace, test⟩
  | yes {env trace place test yes no t after} :
      generate env test trace = .ok t after →
      Calls ⟨env, trace, .cond place test yes no⟩ ⟨env, after, yes⟩
  | no {env trace place test yes no t middle y after} :
      generate env test trace = .ok t middle →
      generate env yes middle = .ok y after →
      Calls ⟨env, trace, .cond place test yes no⟩ ⟨env, after, no⟩
  | callee {env trace place callee argument} :
      Calls ⟨env, trace, .call place callee argument⟩ ⟨env, trace, callee⟩
  | argument {env trace place callee argument f after} :
      generate env callee trace = .ok f after →
      Calls ⟨env, trace, .call place callee argument⟩ ⟨env, after, argument⟩
  | value {env trace place name recursive value body scope start} :
      letScope env recursive name trace = .ok scope start →
      Calls ⟨env, trace, .letIn place name recursive value body⟩ ⟨scope, start, value⟩
  | body {env trace place name recursive value body scope start v middle s after scheme} :
      letScope env recursive name trace = .ok scope start →
      generate scope value start = .ok v middle →
      Infer.solve v.constraints middle = .ok s after →
      letScheme env recursive s v.type = .ok scheme →
      Calls ⟨env, trace, .letIn place name recursive value body⟩
        ⟨env.extend name scheme, { after with events := after.events.push (.bound name scheme) },
          body⟩

/-- The run on `e` makes this call, at whatever depth. -/
def Program.Reaches (e : Program) (call : Call) : Prop :=
  Relation.ReflTransGen Calls ⟨[], {}, e⟩ call

theorem Calls.ready {caller call : Call} (h : Calls caller call)
    (ready : caller.env.Ready caller.trace.counter) : call.env.Ready call.trace.counter := by
  cases h with
  | func => exact ready.parameter _ (by dsimp only; omega)
  | not | left | test | callee => exact ready
  | right first | yes first | argument first => exact ready.after (generates_of_ok first)
  | no first second =>
      exact (ready.after (generates_of_ok first)).after (generates_of_ok second)
  | value opens => exact ready_scope ready opens
  | body opens generated solved schemed =>
      obtain ⟨solution, solves, rfl, rfl⟩ := Infer.run_solve_ok.1 solved
      obtain ⟨scheme', schemed', readyBody⟩ :=
        ready_let ready opens (generates_of_ok generated) solves
      rw [schemed, Except.ok.injEq] at schemed'
      subst schemed'
      exact readyBody

theorem Program.Reaches.ready {e : Program} {call : Call} (h : e.Reaches call) :
    call.env.Ready call.trace.counter := by
  induction h with
  | refl => exact .nil 0
  | tail _ last ih => exact last.ready ih

namespace Env

def binders (env : Env) : List String :=
  env.flatMap fun binding => binding.2.binders

theorem Plain.mem_binders {n : Nat} {env : Env} (plain : env.Plain n) {q : String} :
    q ∈ env.binders ↔ ∃ binding ∈ env, q ∈ binding.2.quantified := by
  rw [binders, List.mem_flatMap]
  refine exists_congr fun binding => and_congr_right fun hb => ?_
  rw [(plain.scheme binding hb).binders_eq]

end Env

theorem Unify.mentions_eq_false {cs : List Constraint} (mono : ∀ c ∈ cs, c.Mono) {q : String}
    (outside : q ∉ occurrences cs) {c : Constraint} (hc : c ∈ cs) :
    c.left.mentions q = false ∧ c.right.mentions q = false := by
  simp only [occurrences, List.mem_flatMap, not_exists, not_and, Constraint.occurrences,
    List.mem_append, not_or] at outside
  exact ⟨(mono c hc).1.mentions_eq_false (outside c hc).1,
    (mono c hc).2.mentions_eq_false (outside c hc).2⟩

theorem Unify.MostGeneral.rule_apart {s : Subst} {cs : List Constraint} (general : MostGeneral s cs)
    {q : String} (outside : q ∉ occurrences cs) {rule : Rule} (hr : rule ∈ s) :
    rule.1 ≠ q ∧ rule.2.mentions q = false := by
  have support := general.rule_support hr
  refine ⟨fun same => outside (same ▸ support.1), ?_⟩
  exact (general.solved.mono rule hr).mentions_eq_false fun occurs => outside (support.2 occurs)

theorem Env.Ready.clear_value {env scope : Env} {recursive : Bool} {name : Text} {value : Program}
    {trace start after : Trace} {v : Generated} (ready : env.Ready trace.counter)
    (opens : letScope env recursive name trace = .ok scope start)
    (generated : generate scope value start = .ok v after) :
    (∀ c ∈ v.constraints, c.Mono) ∧ ∀ binding ∈ env, ∀ q ∈ binding.2.quantified,
      q ∉ Unify.occurrences v.constraints := by
  have readyScope := ready_scope ready opens
  have bounded := (generates_of_ok generated).bounded readyScope.toPlain
  have sub : env ⊆ scope := by
    rw [(letScope_ok.1 opens).1]
    split
    · exact List.subset_cons_self _ _
    · exact List.Subset.refl _
  exact ⟨bounded.mono, fun binding hb => readyScope.clear bounded binding (sub hb)⟩

theorem Env.Ready.refine_eq_assignApart {env : Env} {n : Nat} (ready : env.Ready n) {s : Subst}
    {cs : List Constraint} (general : Unify.MostGeneral s cs)
    (clear : ∀ binding ∈ env, ∀ q ∈ binding.2.quantified, q ∉ Unify.occurrences cs) :
    env.refine s = .ok (env.map fun binding => (binding.1, binding.2.assignApart s.action)) := by
  rw [ready.toPlain.refine_eq general clear, general.solved.action]
  congr 1
  refine List.map_congr_left fun binding hb => ?_
  rw [(ready.scheme binding hb).assignApart_eq (Env.value_apart general clear binding hb)]

/-- In every call that a run makes, quantified names are apart from all others. -/
theorem run_captures_nothing {e : Program} {call : Call} (reached : e.Reaches call) :
    (∀ q ∈ call.env.binders, q ∉ call.env.free ∧ ¬ Supply.Ahead call.trace.counter q) ∧
    (∀ place name recursive value body, call.expr = .letIn place name recursive value body →
      ∀ scope start v after, letScope call.env recursive name call.trace = .ok scope start →
        generate scope value start = .ok v after →
        (∀ q ∈ call.env.binders, ∀ c ∈ v.constraints,
          c.left.mentions q = false ∧ c.right.mentions q = false) ∧
        ∀ solution, Unify.solve v.constraints = .ok solution →
          (∀ q ∈ call.env.binders, ∀ rule ∈ solution.subst,
            rule.1 ≠ q ∧ rule.2.mentions q = false) ∧
          call.env.refine solution.subst = .ok (call.env.map fun binding =>
            (binding.1, binding.2.assignApart solution.subst.action))) ∧
    ∀ place name scheme, call.expr = .ident place name → call.env.get? name = some scheme →
      Infer.instantiate scheme call.trace =
        .ok (scheme.core.assign (Ty.freshen call.trace.counter scheme.quantified))
          { call.trace with counter := call.trace.counter + scheme.quantified.length } := by
  have ready := reached.ready
  refine ⟨fun q hq => ?_, fun place name recursive value body _ scope start v after opens
    generated => ?_, fun place name scheme _ found => ?_⟩
  · obtain ⟨binding, hb, hq⟩ := ready.mem_binders.1 hq
    exact ⟨ready.apart binding hb q hq, ready.known binding hb q (.inr hq)⟩
  · obtain ⟨mono, clear⟩ := ready.clear_value opens generated
    have outside : ∀ q ∈ call.env.binders, q ∉ Unify.occurrences v.constraints := by
      intro q hq
      obtain ⟨binding, hb, hq⟩ := ready.mem_binders.1 hq
      exact clear binding hb q hq
    refine ⟨fun q hq c hc => Unify.mentions_eq_false mono (outside q hq) hc,
      fun solution solves => ?_⟩
    have general := Unify.mostGeneral_of_ok mono solves
    exact ⟨fun q hq rule hr => general.rule_apart (outside q hq) hr,
      ready.refine_eq_assignApart general clear⟩
  · exact Infer.run_instantiate_ok.2 ⟨ready.toPlain.instanceAt found, rfl⟩

theorem run_captures_nothing_nested :
    ∃ call : Call, Program.Reaches (.func none "y" (.letIn none "id" false
        (.func none "x" (.ident none "x"))
        (.letIn none "k" false (.call none (.ident none "id") (.ident none "y"))
          (.ident none "k")))) call ∧
      call.env = ([("id", .poly ["d"] (.arrow (.var "d") (.var "d"))), ("y", .var "a")] :
        List (Text × Ty)) ∧
      call.env.binders = ["d"] ∧
      (∀ q ∈ call.env.binders, q ∉ call.env.free ∧ ¬ Supply.Ahead call.trace.counter q) ∧
      call.env.refine [("a", .var "f"), ("e", .var "f")] = .ok (call.env.map fun binding =>
        (binding.1, binding.2.assignApart (Subst.action [("a", .var "f"), ("e", .var "f")]))) := by
  have value : Unify.solve [⟨.var "c", .var "d", none⟩] = .ok ⟨[("c", .var "d")], 2⟩ := by cbv
  have solved : Infer.solve [⟨.var "c", .var "d", none⟩] ⟨4, #[]⟩ = .ok _ _ :=
    Infer.run_solve_ok.2 ⟨_, value, rfl, rfl⟩
  have reached : Program.Reaches (.func none "y" (.letIn none "id" false
      (.func none "x" (.ident none "x"))
      (.letIn none "k" false (.call none (.ident none "id") (.ident none "y")) (.ident none "k"))))
      _ := .tail (.single .func) (.body rfl rfl solved rfl)
  have solves : Unify.solve [⟨.arrow (.var "e") (.var "e"), .arrow (.var "a") (.var "f"), none⟩] =
      .ok ⟨[("a", .var "f"), ("e", .var "f")], 2⟩ := by cbv
  obtain ⟨apart, lets, -⟩ := run_captures_nothing reached
  exact ⟨_, reached, rfl, rfl, apart, ((lets _ _ _ _ _ rfl _ _ _ _ rfl rfl).2 _ solves).2⟩

end HindleyMilner
