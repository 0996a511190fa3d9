import HindleyMilner.Proofs.Alpha
import HindleyMilner.Proofs.Generates

/-!
Instantiating what was generalized. Generalizing keeps free what is free in the environment and
quantifies all other names of the type, each once and in order of appearance. Instantiating replaces
them one after the other by names of the supply. If the type holds no name that is still to come,
this renames all of them at once, so the type comes back up to the names that were quantified.
-/

namespace HindleyMilner

theorem eraseDups_filter (keep : String → Bool) (names : List String) :
    (names.filter keep).eraseDups = names.eraseDups.filter keep := by
  induction names using induction_on_distinct with
  | nil => rfl
  | cons x rest ih =>
      rw [List.eraseDups_cons]
      cases kept : keep x with
      | true =>
          rw [List.filter_cons_of_pos kept, List.filter_cons_of_pos kept, List.eraseDups_cons,
            ← ih, List.filter_comm]
      | false =>
          have others : ∀ y ∈ rest, (keep y && !y == x) = keep y := by
            intro y _
            by_cases same : y = x
            · simp [same, kept]
            · simp [same]
          rw [List.filter_cons_of_neg (by simp [kept]), List.filter_cons_of_neg (by simp [kept]),
            ← ih, List.filter_filter, List.filter_congr others]

namespace Ty

theorem occurrences_eq_filter (t : Ty) :
    t.occurrences = t.core.occurrences.filter (· ∉ t.quantified) := by
  cases t with
  | poly bound b => rfl
  | prim | var | arrow | foreign => simp [core, quantified]

/-- The new name of `x` if the names of `bound` are replaced by those of the supply from `n` on. -/
def freshName (n : Nat) (bound : List String) (x : String) : String :=
  if x ∈ bound then Supply.name (n + bound.idxOf x) else x

variable {n : Nat} {bound : List String}

theorem freshName_of_notMem {x : String} (h : x ∉ bound) : freshName n bound x = x :=
  if_neg h

theorem freshen_eq_var (n : Nat) (bound : List String) (x : String) :
    freshen n bound x = .var (freshName n bound x) := by
  unfold freshen freshName
  split <;> rfl

theorem apart_freshName {names : List String} (known : ∀ x ∈ names, ¬ Supply.Ahead n x) :
    Apart (freshName n bound) names := by
  have replaced : Apart (fun x => Supply.name (n + bound.idxOf x)) bound := by
    intro x hx y _ equal
    have indices := Supply.name_injective equal
    exact (List.idxOf_inj hx).1 (by omega)
  have injOn : Set.InjOn (freshName n bound) {x | x ∈ names} := by
    refine replaced.injOn_ite Function.injective_id.injOn fun x _ y hy _ equal => ?_
    exact known y hy (equal ▸ Supply.name_ahead.2 (Nat.le_add_right n _))
  exact fun x hx y hy equal => injOn hx hy equal

theorem map_freshName (nodup : bound.Nodup) :
    bound.map (freshName n bound) = (List.range' n bound.length).map Supply.name := by
  apply List.ext_getElem
  · simp
  · intro i hi _
    have inside : i < bound.length := by simpa using hi
    simp [freshName, nodup.idxOf_getElem i inside]

end Ty

namespace Env

variable {t : Ty}

theorem quantified_generalize_eq (mono : t.Mono) (env : Env) :
    (env.generalize t).quantified = t.free.filter (· ∉ env.free) := by
  simp only [generalize]
  split
  · rename_i none
    rw [none, mono.quantified_eq]
  · rfl

theorem free_generalize (mono : t.Mono) (env : Env) :
    (env.generalize t).free = t.free.filter (· ∈ env.free) := by
  have outer : ∀ x ∈ t.occurrences,
      decide (x ∉ (env.generalize t).quantified) = decide (x ∈ env.free) := by
    intro x hx
    simp [quantified_generalize mono, hx]
  rw [Ty.free, Ty.occurrences_eq_filter, core_generalize mono, List.filter_congr outer,
    eraseDups_filter, Ty.free]

end Env

theorem Infer.instantiate_generalize {t : Ty} (mono : t.Mono) (env : Env) {trace : Trace}
    (known : ∀ x ∈ t.occurrences, ¬ Supply.Ahead trace.counter x) :
    Infer.instantiate (env.generalize t) trace =
      .ok (t.rename (Ty.freshName trace.counter (env.generalize t).quantified))
        { trace with counter := trace.counter + (env.generalize t).quantified.length } := by
  have quantified : ∀ x ∈ (env.generalize t).quantified, ¬ Supply.Ahead trace.counter x :=
    fun x hx => known x ((Env.quantified_generalize mono env x).1 hx).1
  have placed := Ty.instanceAt_of_mono mono quantified
  rw [Infer.run_instantiate_ok, Env.core_generalize mono, placed, Ty.rename_eq_assign mono]
  exact ⟨congrArg _ (Ty.assign_congr fun x _ => Ty.freshen_eq_var _ _ x), rfl⟩

/-- A type comes back from being generalized and instantiated with new names for all that is not
free in the environment. The new names are the next of the supply, and together with the names that
stay they are kept apart, also from all of the environment if it holds no name still to come. -/
theorem instantiate_renames_quantified (env : Env) {t : Ty} {trace : Trace} (mono : t.Mono)
    (known : ∀ x ∈ t.occurrences, ¬ Supply.Ahead trace.counter x) :
    (env.generalize t).free = t.free.filter (· ∈ env.free) ∧
    (env.generalize t).quantified = t.free.filter (· ∉ env.free) ∧
    ∃ f : String → String,
      Infer.instantiate (env.generalize t) trace = .ok (t.rename f)
        { trace with counter := trace.counter + (env.generalize t).quantified.length } ∧
      (∀ x ∈ env.free, f x = x) ∧
      (env.generalize t).quantified.map f =
        (List.range' trace.counter (env.generalize t).quantified.length).map Supply.name ∧
      Apart f t.occurrences ∧
      ((∀ x ∈ env.free, ¬ Supply.Ahead trace.counter x) → Apart f (t.occurrences ++ env.free)) ∧
      t.alphaEquiv (t.rename f) = true := by
  have quantified := Env.quantified_generalize_eq mono env
  have nodup : (env.generalize t).quantified.Nodup := by
    rw [quantified]
    exact (Unify.nodup_eraseDups t.occurrences).filter _
  have apart : Apart (Ty.freshName trace.counter (env.generalize t).quantified) t.occurrences :=
    Ty.apart_freshName known
  refine ⟨Env.free_generalize mono env, quantified, _, Infer.instantiate_generalize mono env known,
    fun x hx => ?_, Ty.map_freshName nodup, apart, fun outer => ?_, ?_⟩
  · exact Ty.freshName_of_notMem fun mem => ((Env.quantified_generalize mono env x).1 mem).2 hx
  · exact Ty.apart_freshName (List.forall_mem_append.2 ⟨known, outer⟩)
  · rw [← Ty.visits_eq_of_mono mono] at apart
    rw [Ty.alphaEquiv, Ty.normalize_rename apart]
    exact decide_eq_true rfl

/-- Of `'a -> 'b -> 'c -> 'a`, the name `'b` is free in the environment and stays; `'c` is only
quantified there. -/
theorem instantiate_renames_quantified_outer :
    let env : Env := [("k", .poly ["c"] (.arrow (.var "c") (.var "b"))), ("y", .var "b")]
    let t : Ty := .arrow (.var "a") (.arrow (.var "b") (.arrow (.var "c") (.var "a")))
    let trace : Trace := { counter := 3 }
    t.Mono ∧ (∀ x ∈ t.occurrences, ¬ Supply.Ahead trace.counter x) ∧
      env.generalize t = .poly ["a", "c"] t ∧ (env.generalize t).free = ["b"] ∧
      ∃ f : String → String, f "b" = "b" ∧ f "a" = "d" ∧ f "c" = "e" ∧ Apart f t.occurrences ∧
        Infer.instantiate (env.generalize t) trace = .ok (t.rename f) { trace with counter := 5 } ∧
        t.alphaEquiv (t.rename f) = true := by
  intro env t trace
  have mono : t.Mono := by decide
  have known : ∀ x ∈ t.occurrences, ¬ Supply.Ahead trace.counter x := by
    have names : t.occurrences = [0, 1, 2, 0].map Supply.name := by decide
    rw [names]
    intro x hx
    obtain ⟨i, hi, rfl⟩ := List.mem_map.1 hx
    have early : i < 3 := by revert i; decide
    rw [Supply.name_ahead]
    exact Nat.not_le_of_lt early
  have scheme : env.generalize t = .poly ["a", "c"] t := by decide
  obtain ⟨free, -, f, runs, fixed, fresh, apart, -, equivalent⟩ :=
    instantiate_renames_quantified env mono known
  have stays : f "b" = "b" := fixed "b" (by decide)
  have given : (List.range' 3 2).map Supply.name = ["d", "e"] := by decide
  have names : [f "a", f "c"] = ["d", "e"] := by
    rw [scheme] at fresh
    exact fresh.trans given
  obtain ⟨first, second⟩ : f "a" = "d" ∧ f "c" = "e" := by simpa using names
  exact ⟨mono, known, scheme, free, f, stays, first, second, apart, runs, equivalent⟩

end HindleyMilner
