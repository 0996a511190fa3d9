import HindleyMilner.Ty.Basic

/-!
Names for fresh placeholders: the alphabet, then the alphabet with 1 after each letter, then with
2, and so on.
-/

namespace HindleyMilner.Supply

def letter (n : Nat) : Char :=
  Char.ofNat (97 + n % 26)

/-- The name with number `n`, counted from zero. -/
def name (n : Nat) : String :=
  let generation := n / 26
  String.singleton (letter n) ++ if generation = 0 then "" else toString generation

def placeholder (n : Nat) : Ty :=
  .var (name n)

end HindleyMilner.Supply
