import HindleyMilner.Ty.Supply
import Mathlib.Logic.Function.Basic

/-!
Names apart from others. A name can be made longer than all names to avoid. The supply never
repeats a name, and its names are compared by the numbers under which it hands them out: a name is
`Ahead` of a counter if it is still to come, and `Within` two counters if it was handed out between
them.
-/

namespace HindleyMilner

section

variable {α : Type}

def longest : List (List α) → Nat
  | [] => 0
  | x :: names => max x.length (longest names)

def lengthenWith (filler : α) (avoid : List (List α)) (x : List α) : List α :=
  List.replicate (longest avoid + 1) filler ++ x

theorem length_le_longest {names : List (List α)} {x : List α} (h : x ∈ names) :
    x.length ≤ longest names := by
  induction names with
  | nil => simp at h
  | cons y names ih =>
      simp only [List.mem_cons, longest] at h ⊢
      rcases h with rfl | h
      · omega
      · have bound := ih h
        omega

theorem lengthenWith_notMem (filler : α) (avoid : List (List α)) (x : List α) :
    lengthenWith filler avoid x ∉ avoid := by
  intro mem
  have short := length_le_longest mem
  simp only [lengthenWith, List.length_append, List.length_replicate] at short
  omega

end

def lengthen (avoid : List String) (x : String) : String :=
  String.ofList (lengthenWith 'a' (avoid.map String.toList) x.toList)

theorem lengthen_notMem (avoid : List String) (x : String) : lengthen avoid x ∉ avoid := by
  intro mem
  have listed := List.mem_map_of_mem (f := String.toList) mem
  rw [lengthen, String.toList_ofList] at listed
  exact lengthenWith_notMem _ _ _ listed

theorem lengthen_injective (avoid : List String) : Function.Injective (lengthen avoid) := by
  intro x y equal
  have texts := congrArg String.toList equal
  simp only [lengthen, lengthenWith, String.toList_ofList, List.append_cancel_left_eq] at texts
  exact String.toList_inj.1 texts

end HindleyMilner

namespace HindleyMilner.Supply

theorem letter_injective {a b : Nat} (ha : a < 26) (hb : b < 26)
    (h : Char.ofNat (97 + a) = Char.ofNat (97 + b)) : a = b := by
  have table : ∀ a < 26, ∀ b < 26, Char.ofNat (97 + a) = Char.ofNat (97 + b) → a = b := by
    decide
  exact table a ha b hb h

theorem toString_injective {i j : Nat} (h : toString i = toString j) : i = j := by
  have digits : Nat.toDigits 10 i = Nat.toDigits 10 j := by
    have texts : i.repr.toList = j.repr.toList := congrArg String.toList h
    rwa [Nat.toList_repr, Nat.toList_repr] at texts
  have back : ∀ n, Nat.ofDigitChars 10 (Nat.toDigits 10 n) 0 = n := fun n =>
    Nat.ofDigitChars_toDigits (by omega) (by omega)
  rw [← back i, digits, back j]

theorem toString_ne_empty (i : Nat) : toString i ≠ "" := by
  intro h
  have texts : i.repr.toList = [] := congrArg String.toList h
  rw [Nat.toList_repr] at texts
  exact Nat.toDigits_ne_nil texts

theorem name_injective : Function.Injective name := by
  intro i j h
  have texts := congrArg String.toList h
  simp only [name, String.toList_append, String.toList_singleton, List.cons_append,
    List.nil_append, List.cons.injEq] at texts
  obtain ⟨letters, suffixes⟩ := texts
  have remainders : i % 26 = j % 26 :=
    letter_injective (Nat.mod_lt i (by omega)) (Nat.mod_lt j (by omega)) letters
  have generations : i / 26 = j / 26 := by
    have suffix := String.toList_inj.1 suffixes
    by_cases hi : i / 26 = 0
    · by_cases hj : j / 26 = 0
      · omega
      · simp only [hi, hj, ↓reduceIte] at suffix
        exact absurd suffix.symm (toString_ne_empty _)
    · by_cases hj : j / 26 = 0
      · simp only [hi, hj, ↓reduceIte] at suffix
        exact absurd suffix (toString_ne_empty _)
      · simp only [hi, hj, ↓reduceIte] at suffix
        exact toString_injective suffix
  omega

/-- The supply hands `x` out under the number `n` or a later one. -/
def Ahead (n : Nat) (x : String) : Prop :=
  ∃ i, n ≤ i ∧ x = name i

def Within (n m : Nat) (x : String) : Prop :=
  ∃ i, n ≤ i ∧ i < m ∧ x = name i

theorem name_ahead {n i : Nat} : Ahead n (name i) ↔ n ≤ i := by
  constructor
  · rintro ⟨j, hj, equal⟩
    have same : i = j := name_injective equal
    omega
  · exact fun h => ⟨i, h, rfl⟩

theorem name_within {n m i : Nat} : Within n m (name i) ↔ n ≤ i ∧ i < m := by
  constructor
  · rintro ⟨j, hn, hm, equal⟩
    have same : i = j := name_injective equal
    omega
  · exact fun h => ⟨i, h.1, h.2, rfl⟩

theorem Ahead.earlier {n m : Nat} {x : String} (h : Ahead m x) (hn : n ≤ m) : Ahead n x := by
  obtain ⟨i, hi, equal⟩ := h
  exact ⟨i, by omega, equal⟩

theorem Within.ahead {n m : Nat} {x : String} (h : Within n m x) : Ahead n x := by
  obtain ⟨i, hi, -, equal⟩ := h
  exact ⟨i, hi, equal⟩

theorem Within.not_ahead {n m : Nat} {x : String} (h : Within n m x) : ¬ Ahead m x := by
  obtain ⟨i, -, hi, rfl⟩ := h
  rw [name_ahead]
  omega

theorem Within.widen {n m n' m' : Nat} {x : String} (h : Within n m x) (hn : n' ≤ n)
    (hm : m ≤ m') : Within n' m' x := by
  obtain ⟨i, low, high, equal⟩ := h
  exact ⟨i, by omega, by omega, equal⟩

theorem Within.disjoint {n m k l : Nat} {x : String} (h : Within n m x) (le : m ≤ k) :
    ¬ Within k l x := by
  obtain ⟨i, -, hi, rfl⟩ := h
  rw [name_within]
  omega

end HindleyMilner.Supply
