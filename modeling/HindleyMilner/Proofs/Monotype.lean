import HindleyMilner.Ty.Basic
import Mathlib.Logic.Function.Basic

/-!
Types without quantifiers, and putting types for all of their placeholders at once. A replacement
of one name is the assignment that changes this name only. What an assignment does to a type
depends on the placeholders of the type and on nothing else, and it can be read back from the
result.
-/

namespace HindleyMilner

abbrev Assignment := String → Ty

namespace Ty

/-- No quantified type and no foreign value inside. -/
def Mono : Ty → Prop
  | prim _ | var _ => True
  | arrow d c => d.Mono ∧ c.Mono
  | poly _ _ | foreign _ => False

instance decidableMono : (t : Ty) → Decidable t.Mono
  | prim _ | var _ => .isTrue trivial
  | arrow d c => @instDecidableAnd _ _ (decidableMono d) (decidableMono c)
  | poly _ _ | foreign _ => .isFalse id

/-- Puts `θ x` for every free placeholder `x` at once, without renaming. -/
def assign (θ : Assignment) : Ty → Ty
  | prim p => prim p
  | var x => θ x
  | arrow d c => arrow (d.assign θ) (c.assign θ)
  | poly bound b => poly bound (b.assign fun x => if x ∈ bound then var x else θ x)
  | foreign s => foreign s

theorem assign_var (t : Ty) : t.assign var = t := by
  induction t with
  | prim | var | foreign => rfl
  | arrow d c ihd ihc => rw [assign, ihd, ihc]
  | poly bound b ih => simp [assign, ih]

theorem assign_congr {t : Ty} {θ η : Assignment} (h : ∀ x ∈ t.occurrences, θ x = η x) :
    t.assign θ = t.assign η := by
  induction t generalizing θ η with
  | prim | foreign => rfl
  | var x => exact h x (by simp [occurrences])
  | arrow d c ihd ihc =>
      have hd : d.assign θ = d.assign η := ihd fun x hx => h x (by simp [occurrences, hx])
      have hc : c.assign θ = c.assign η := ihc fun x hx => h x (by simp [occurrences, hx])
      rw [assign, assign, hd, hc]
  | poly bound b ih =>
      simp only [assign, poly.injEq, true_and]
      refine ih fun x hx => ?_
      by_cases hb : x ∈ bound
      · simp [hb]
      · simpa [hb] using h x (by simp [occurrences, hx, hb])

theorem eq_of_assign_eq {t : Ty} {θ η : Assignment} (h : t.assign θ = t.assign η) {x : String}
    (hx : x ∈ t.occurrences) : θ x = η x := by
  induction t generalizing θ η with
  | prim | foreign => simp [occurrences] at hx
  | var y =>
      have hy : x = y := by simpa [occurrences] using hx
      subst hy
      exact h
  | arrow d c ihd ihc =>
      simp only [assign, arrow.injEq] at h
      simp only [occurrences, List.mem_append] at hx
      exact hx.elim (ihd h.1) (ihc h.2)
  | poly bound b ih =>
      simp only [assign, poly.injEq, true_and] at h
      simp only [occurrences, List.mem_filter, decide_eq_true_eq] at hx
      simpa [hx.2] using ih h hx.1

theorem assign_assign {t : Ty} (mono : t.Mono) (θ η : Assignment) :
    (t.assign θ).assign η = t.assign fun x => (θ x).assign η := by
  induction t with
  | prim | var => rfl
  | arrow d c ihd ihc => simp only [assign, ihd mono.1, ihc mono.2]
  | poly | foreign => exact mono.elim

theorem Mono.assign {t : Ty} (mono : t.Mono) {θ : Assignment}
    (h : ∀ x ∈ t.occurrences, (θ x).Mono) : (t.assign θ).Mono := by
  induction t with
  | prim => trivial
  | var x => exact h x (by simp [occurrences])
  | arrow d c ihd ihc =>
      exact ⟨ihd mono.1 fun x hx => h x (by simp [occurrences, hx]),
        ihc mono.2 fun x hx => h x (by simp [occurrences, hx])⟩
  | poly | foreign => exact mono.elim

theorem mem_occurrences_assign {t : Ty} (mono : t.Mono) {θ : Assignment} {y : String} :
    y ∈ (t.assign θ).occurrences ↔ ∃ x ∈ t.occurrences, y ∈ (θ x).occurrences := by
  induction t with
  | prim => simp [Ty.assign, occurrences]
  | var x => simp [Ty.assign, occurrences]
  | arrow d c ihd ihc =>
      simp only [Ty.assign, occurrences, List.mem_append, ihd mono.1, ihc mono.2]
      constructor
      · rintro (⟨x, hx, hy⟩ | ⟨x, hx, hy⟩)
        · exact ⟨x, .inl hx, hy⟩
        · exact ⟨x, .inr hx, hy⟩
      · rintro ⟨x, hx | hx, hy⟩
        · exact .inl ⟨x, hx, hy⟩
        · exact .inr ⟨x, hx, hy⟩
  | poly | foreign => exact mono.elim

theorem subst_eq_assign (t : Ty) (x : String) (r : Ty) :
    t.subst x r = t.assign (Function.update var x r) := by
  induction t with
  | prim | foreign => rfl
  | var y => simp [subst, Ty.assign, Function.update_apply]
  | arrow d c ihd ihc => rw [subst, Ty.assign, ihd, ihc]
  | poly bound b ih =>
      by_cases hb : x ∈ bound
      · have same : (fun y => if y ∈ bound then var y else Function.update var x r y) = var := by
          funext y
          by_cases hy : y = x
          · simp [hy, hb]
          · simp [Function.update_of_ne hy]
        rw [subst, if_pos hb, Ty.assign, same, assign_var]
      · rw [subst, if_neg hb, Ty.assign, ih]
        congr 2
        funext y
        by_cases hy : y ∈ bound
        · have hne : y ≠ x := fun h => hb (h ▸ hy)
          simp [hy, Function.update_of_ne hne]
        · simp [hy]

theorem subst_of_notMem {t : Ty} {x : String} (h : x ∉ t.occurrences) (r : Ty) :
    t.subst x r = t := by
  have same : ∀ y ∈ t.occurrences, Function.update var x r y = var y := by
    intro y hy
    have hne : y ≠ x := fun equal => h (equal ▸ hy)
    exact Function.update_of_ne hne r var
  rw [subst_eq_assign, assign_congr same, assign_var]

theorem assign_subst {t : Ty} (mono : t.Mono) {θ : Assignment} {x : String} {r : Ty}
    (h : θ x = r.assign θ) : (t.subst x r).assign θ = t.assign θ := by
  rw [subst_eq_assign, assign_assign mono]
  refine assign_congr fun y _ => ?_
  by_cases hy : y = x
  · simp [hy, h]
  · simp [Function.update_of_ne hy, Ty.assign]

theorem Mono.subst {t r : Ty} (mono : t.Mono) (hr : r.Mono) (x : String) :
    (t.subst x r).Mono := by
  rw [subst_eq_assign]
  refine mono.assign fun y _ => ?_
  by_cases hy : y = x
  · simpa [hy] using hr
  · simp [Function.update_of_ne hy, Mono]

theorem Mono.obstacle {t : Ty} (mono : t.Mono) (x : String) : t.obstacle x = none := by
  induction t with
  | prim | var => rfl
  | arrow d c ihd ihc => simp [Ty.obstacle, ihd mono.1, ihc mono.2]
  | poly | foreign => exact mono.elim

theorem Mono.mentions_iff {t : Ty} (mono : t.Mono) {x : String} :
    t.mentions x = true ↔ x ∈ t.occurrences := by
  refine ⟨fun h => ?_, mentions_of_mem_occurrences⟩
  induction t with
  | prim => simp [mentions] at h
  | var y => simpa [mentions, occurrences, eq_comm] using h
  | arrow d c ihd ihc =>
      simp only [mentions, Bool.or_eq_true] at h
      simp only [occurrences, List.mem_append]
      exact h.imp (ihd mono.1) (ihc mono.2)
  | poly | foreign => exact mono.elim

theorem size_le_size_assign {t : Ty} (mono : t.Mono) {x : String} (h : x ∈ t.occurrences)
    (θ : Assignment) : (θ x).size ≤ (t.assign θ).size := by
  induction t with
  | prim => simp [occurrences] at h
  | var y =>
      have hy : x = y := by simpa [occurrences] using h
      simp [hy, Ty.assign]
  | arrow d c ihd ihc =>
      simp only [occurrences, List.mem_append] at h
      simp only [Ty.assign, size]
      cases h with
      | inl h =>
          have bound := ihd mono.1 h
          omega
      | inr h =>
          have bound := ihc mono.2 h
          omega
  | poly | foreign => exact mono.elim

theorem assign_ne_of_occurs {t : Ty} (mono : t.Mono) {x : String} (h : x ∈ t.occurrences)
    (hne : t ≠ var x) (θ : Assignment) : θ x ≠ t.assign θ := by
  intro equal
  cases t with
  | prim => simp [occurrences] at h
  | var y =>
      have hy : x = y := by simpa [occurrences] using h
      exact hne (by rw [hy])
  | arrow d c =>
      have hsize : (θ x).size = (d.assign θ).size + (c.assign θ).size + 1 := by
        rw [equal, Ty.assign, size]
      simp only [occurrences, List.mem_append] at h
      cases h with
      | inl h =>
          have bound := size_le_size_assign mono.1 h θ
          omega
      | inr h =>
          have bound := size_le_size_assign mono.2 h θ
          omega
  | poly | foreign => exact mono.elim

end Ty

end HindleyMilner
