/-!
Text as a sequence of code points. A code point is a character, or one half of a surrogate pair.
No character has the number of a half, but an escape of four hexadecimal digits can name it.
-/

namespace HindleyMilner

inductive Point where
  | char (c : Char)
  | high (bits : Fin 0x400)
  | low (bits : Fin 0x400)
deriving DecidableEq, Repr

instance : Coe Char Point := ⟨.char⟩

namespace Point

def toNat : Point → Nat
  | char c => c.toNat
  | high bits => 0xD800 + bits
  | low bits => 0xDC00 + bits

def ofNat (n : Nat) : Point :=
  if h : 0xD800 ≤ n ∧ n < 0xDC00 then high ⟨n - 0xD800, by omega⟩
  else if h : 0xDC00 ≤ n ∧ n < 0xE000 then low ⟨n - 0xDC00, by omega⟩
  else char (Char.ofNat n)

def isHalf : Point → Bool
  | char _ => false
  | high _ | low _ => true

/-- The character that two halves stand for. -/
def pair (first second : Fin 0x400) : Char :=
  Char.ofNat (0x10000 + first * 0x400 + second)

theorem toNat_pair (first second : Fin 0x400) :
    (pair first second).toNat = 0x10000 + first * 0x400 + second := by
  have valid : Nat.isValidChar (0x10000 + first * 0x400 + second) := .inr ⟨by omega, by omega⟩
  rw [pair, Char.ofNat, dif_pos valid]
  rfl

theorem toNat_lt (p : Point) : p.toNat < 0x110000 := by
  cases p with
  | char c =>
      have valid : c.toNat < 0xD800 ∨ 0xDFFF < c.toNat ∧ c.toNat < 0x110000 := c.valid
      rw [toNat]
      omega
  | high bits | low bits =>
      rw [toNat]
      omega

theorem ofNat_toNat (p : Point) : ofNat p.toNat = p := by
  cases p with
  | char c =>
      have valid : c.toNat < 0xD800 ∨ 0xDFFF < c.toNat ∧ c.toNat < 0x110000 := c.valid
      rw [toNat, ofNat, dif_neg (by omega), dif_neg (by omega), Char.ofNat_toNat]
  | high bits =>
      rw [toNat, ofNat, dif_pos (by omega)]
      simp
  | low bits =>
      rw [toNat, ofNat, dif_neg (by omega), dif_pos (by omega)]
      simp

end Point

abbrev Text := List Point

namespace Text

instance : LawfulBEq Text := inferInstance

def ofChars (cs : List Char) : Text :=
  cs.map .char

@[coe] def ofString (s : String) : Text :=
  ofChars s.toList

instance : Coe String Text := ⟨ofString⟩

def spaces (count : Nat) : Text :=
  List.replicate count ' '

@[simp] theorem ofString_inj {s t : String} : ofString s = ofString t ↔ s = t := by
  simp [ofString, ofChars, List.map_inj_right, String.toList_inj]

@[simp] theorem ofString_beq (s t : String) : (ofString s == ofString t) = (s == t) := by
  rw [Bool.eq_iff_iff, beq_iff_eq, beq_iff_eq, ofString_inj]

@[simp] theorem ofString_append (s t : String) : ofString (s ++ t) = ofString s ++ ofString t := by
  simp [ofString, ofChars]

end Text

end HindleyMilner
