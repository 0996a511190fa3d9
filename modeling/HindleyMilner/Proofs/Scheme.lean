import HindleyMilner.Env
import HindleyMilner.Proofs.Fresh
import HindleyMilner.Proofs.SolvedForm

/-!
Type schemes: one list of quantified names over a type without quantifiers. Instantiating replaces
the quantified names one after the other, and since fresh names are never quantified, this is one
renaming of all of them at once. Generalizing quantifies what the environment leaves open.
-/

namespace HindleyMilner

namespace Ty

def quantified : Ty → List String
  | poly bound _ => bound
  | _ => []

def core : Ty → Ty
  | poly _ b => b
  | t => t

/-- At most one quantifier, and none below it. -/
def Scheme (t : Ty) : Prop :=
  t.core.Mono

theorem mem_occurrences {t : Ty} {x : String} :
    x ∈ t.occurrences ↔ x ∈ t.core.occurrences ∧ x ∉ t.quantified := by
  cases t with
  | poly bound b => simp [occurrences, core, quantified]
  | prim | var | arrow | foreign => simp [core, quantified]

theorem mentions_of_mem_core {t : Ty} {x : String}
    (h : x ∈ t.core.occurrences ∨ x ∈ t.quantified) : t.mentions x = true := by
  cases t with
  | poly bound b =>
      rw [mentions, Bool.or_eq_true, decide_eq_true_iff]
      exact h.symm.imp id mentions_of_mem_occurrences
  | prim | var | arrow | foreign =>
      exact mentions_of_mem_occurrences (h.resolve_right List.not_mem_nil)

theorem Mono.core_eq {t : Ty} (mono : t.Mono) : t.core = t := by
  cases t with
  | poly => exact mono.elim
  | prim | var | arrow | foreign => rfl

theorem Mono.quantified_eq {t : Ty} (mono : t.Mono) : t.quantified = [] := by
  cases t with
  | poly => exact mono.elim
  | prim | var | arrow | foreign => rfl

theorem Mono.scheme {t : Ty} (mono : t.Mono) : t.Scheme := by
  rw [Scheme, mono.core_eq]
  exact mono

/-- Replaces names one after the other by the placeholders that the supply hands out from `n`
on. -/
def instanceAt (n : Nat) : List String → Ty → Except Fault Ty
  | [], t => .ok t
  | x :: bound, t => do
      let u ← t.replace x (Supply.placeholder n)
      instanceAt (n + 1) bound u

/-- The renaming that `instanceAt` comes to. -/
def freshen (n : Nat) (bound : List String) : Assignment :=
  fun x => if x ∈ bound then Supply.placeholder (n + bound.idxOf x) else .var x

theorem freshen_mono (n : Nat) (bound : List String) (x : String) :
    (freshen n bound x).Mono := by
  unfold freshen
  split <;> trivial

theorem freshen_of_notMem {n : Nat} {bound : List String} {x : String} (h : x ∉ bound) :
    freshen n bound x = .var x := by
  rw [freshen, if_neg h]

theorem freshen_of_mem {n : Nat} {bound : List String} {x : String} (h : x ∈ bound) :
    ∃ y, freshen n bound x = .var y ∧ Supply.Within n (n + bound.length) y := by
  refine ⟨Supply.name (n + bound.idxOf x), ?_, ?_⟩
  · rw [freshen, if_pos h, Supply.placeholder]
  · have inside := List.idxOf_lt_length_of_mem h
    rw [Supply.name_within]
    omega

theorem freshen_cons {n : Nat} {x : String} {bound : List String}
    (known : ∀ y ∈ bound, ¬ Supply.Ahead n y) (y : String) :
    (Function.update var x (Supply.placeholder n) y).assign (freshen (n + 1) bound) =
      freshen n (x :: bound) y := by
  by_cases hy : y = x
  · have later : Supply.name n ∉ bound := fun mem =>
      known _ mem (Supply.name_ahead.2 (Nat.le_refl n))
    rw [hy, Function.update_self, Supply.placeholder, Ty.assign, freshen_of_notMem later]
    simp [freshen, Supply.placeholder]
  · rw [Function.update_of_ne hy, Ty.assign]
    by_cases mem : y ∈ bound
    · have index : (x :: bound).idxOf y = bound.idxOf y + 1 := by
        have hb : (x == y) = false := by simpa using Ne.symm hy
        rw [List.idxOf_cons, hb]
        rfl
      rw [freshen, freshen, if_pos mem, if_pos (List.mem_cons_of_mem x mem), index]
      congr 1
      omega
    · have absent : y ∉ x :: bound := by simp [hy, mem]
      rw [freshen_of_notMem mem, freshen_of_notMem absent]

theorem instanceAt_of_mono {n : Nat} {bound : List String} {t : Ty} (mono : t.Mono)
    (known : ∀ y ∈ bound, ¬ Supply.Ahead n y) :
    instanceAt n bound t = .ok (t.assign (freshen n bound)) := by
  induction bound generalizing n t with
  | nil =>
      have same : freshen n [] = var := by
        funext x
        exact freshen_of_notMem (by simp)
      rw [instanceAt, same, assign_var]
  | cons x bound ih =>
      have rest : ∀ y ∈ bound, ¬ Supply.Ahead n y := fun y hy => known y (by simp [hy])
      have fresh : (Supply.placeholder n).Mono := trivial
      have next : (t.subst x (Supply.placeholder n)).Mono := mono.subst fresh x
      have deeper : ∀ y ∈ bound, ¬ Supply.Ahead (n + 1) y := fun y hy ahead =>
        rest y hy (ahead.earlier (by omega))
      rw [instanceAt, mono.replace]
      refine (ih next deeper).trans ?_
      rw [subst_eq_assign, assign_assign mono]
      congr 1
      exact assign_congr fun y _ => freshen_cons rest y

end Ty

namespace Env

theorem mem_free {env : Env} {x : String} :
    x ∈ env.free ↔ ∃ binding ∈ env, x ∈ binding.2.occurrences := by
  simp only [free, List.mem_eraseDups, List.mem_flatMap, Ty.mem_free]

theorem mem_free_extend {env : Env} {name : Text} {x : String} {t : Ty} :
    x ∈ (env.extend name t).free ↔ x ∈ t.occurrences ∨ x ∈ env.free := by
  simp [mem_free, extend]

theorem get?_extend_self (env : Env) (name : Text) (t : Ty) :
    (env.extend name t).get? name = some t := by
  simp [get?, extend]

theorem get?_extend_ne {env : Env} {name x : Text} (h : x ≠ name) (t : Ty) :
    (env.extend name t).get? x = env.get? x := by
  have hb : (x == name) = false := by simpa using h
  simp [get?, extend, List.lookup_cons, hb]

theorem mem_of_get? {env : Env} {x : Text} {t : Ty} (h : env.get? x = some t) :
    (x, t) ∈ env := by
  obtain ⟨before, after, split, -⟩ := List.lookup_eq_some_iff.1 h
  simp [split]

theorem core_generalize {t : Ty} (mono : t.Mono) (env : Env) : (env.generalize t).core = t := by
  simp only [generalize]
  split
  · exact mono.core_eq
  · rfl

theorem quantified_generalize {t : Ty} (mono : t.Mono) (env : Env) (x : String) :
    x ∈ (env.generalize t).quantified ↔ x ∈ t.occurrences ∧ x ∉ env.free := by
  have open_ : x ∈ t.free.filter (· ∉ env.free) ↔ x ∈ t.occurrences ∧ x ∉ env.free := by
    simp [Ty.mem_free]
  simp only [generalize]
  split
  · rename_i none
    rw [none] at open_
    rw [mono.quantified_eq, open_]
  · rw [← open_]
    rfl

theorem mem_occurrences_generalize {t : Ty} (mono : t.Mono) (env : Env) (x : String) :
    x ∈ (env.generalize t).occurrences ↔ x ∈ t.occurrences ∧ x ∈ env.free := by
  rw [Ty.mem_occurrences, core_generalize mono, quantified_generalize mono]
  by_cases h : x ∈ env.free
  · simp [h]
  · simp [h]

theorem scheme_generalize {t : Ty} (mono : t.Mono) (env : Env) : (env.generalize t).Scheme := by
  rw [Ty.Scheme, core_generalize mono]
  exact mono

end Env

end HindleyMilner
