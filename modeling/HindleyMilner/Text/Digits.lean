import HindleyMilner.Text.Basic

/-!
Whole numbers in decimal digits. Neither writing nor reading converts more than `digitLimit` of
them.
-/

namespace HindleyMilner.Text

def digitLimit : Nat := 4300

/-- A whole number has too many digits to be written. -/
structure LongNumeral where
  limit : Nat
deriving DecidableEq, Repr

def LongNumeral.message (e : LongNumeral) : String :=
  "Exceeds the limit (" ++ toString e.limit ++ " digits) for integer string conversion; " ++
    "use sys.set_int_max_str_digits() to increase the limit"

def digitCount (n : Int) : Nat :=
  (Nat.toDigits 10 n.natAbs).length

/-- There is a result only if each of the numbers in it can be written. -/
def limited {α : Type} (numbers : List Int) (result : α) : Except LongNumeral α :=
  if ∀ n ∈ numbers, digitCount n ≤ digitLimit then .ok result else .error ⟨digitLimit⟩

section

variable {α β : Type} {numbers more : List Int} {a b : α}

theorem limited_eq_ok :
    limited numbers a = .ok b ↔ (∀ n ∈ numbers, digitCount n ≤ digitLimit) ∧ a = b := by
  by_cases short : ∀ n ∈ numbers, digitCount n ≤ digitLimit
  · rw [limited, if_pos short, Except.ok.injEq, and_iff_right short]
  · rw [limited, if_neg short]
    exact iff_of_false nofun fun h => short h.1

theorem limited_append_self : limited (numbers ++ numbers) a = limited numbers a := by
  simp only [limited, List.forall_mem_append, and_self]

theorem limited_of_long {n : Int} (member : n ∈ numbers) (long : digitLimit < digitCount n) :
    limited numbers a = .error ⟨digitLimit⟩ :=
  if_neg fun short => Nat.not_le.2 long (short n member)

@[simp] theorem limited_nil : limited [] a = pure a :=
  if_pos (List.forall_mem_nil _)

@[simp] theorem map_limited (f : α → β) : f <$> limited numbers a = limited numbers (f a) := by
  unfold limited
  split <;> rfl

@[simp] theorem limited_bind (f : α → β) :
    (limited numbers a >>= fun x => limited more (f x)) = limited (numbers ++ more) (f a) := by
  by_cases short : ∀ n ∈ numbers, digitCount n ≤ digitLimit
  · have both : limited (numbers ++ more) (f a) = limited more (f a) := by
      simp only [limited, List.forall_mem_append, and_iff_right short]
    rw [both, limited, if_pos short]
    rfl
  · have both : limited (numbers ++ more) (f a) = .error ⟨digitLimit⟩ :=
      if_neg fun h => short (List.forall_mem_append.1 h).1
    rw [both, limited, if_neg short]
    rfl

end

def numeral (n : Int) : Except LongNumeral Text :=
  limited [n] (toString n)

end HindleyMilner.Text
