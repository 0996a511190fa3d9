import HindleyMilner.Json.Reader
import HindleyMilner.Json.Writer

/-!
Written tokens are scanned back. A quoted text is scanned as its code points, except that two halves
which stand side by side come back as the one character that they make. A numeral is scanned up to
the first code point that cannot continue it, so what stands after it matters.
-/

namespace HindleyMilner

theorem Text.hexValue?_hexDigit : ∀ n < 16, hexValue? (hexDigit n) = some n := by
  decide

/-- Two halves that stand side by side become one character. -/
def Text.joined : Text → Text
  | .high h :: .low l :: rest => Point.pair h l :: joined rest
  | p :: rest => p :: joined rest
  | [] => []

theorem Text.head?_of_joined {text : Text} {l : Fin 0x400}
    (h : text.joined.head? = some (.low l)) : text.head? = some (.low l) := by
  fun_induction joined text with
  | case1 => cases h
  | case2 => exact h
  | case3 => cases h

@[simp] theorem Text.joined_joined (text : Text) : text.joined.joined = text.joined := by
  fun_induction joined text with
  | case1 first second rest ih => rw [joined, ih]; nofun
  | case2 p rest other ih =>
      rw [joined, ih]
      intro h l tail same next
      have first : rest.head? = some (.low l) := head?_of_joined (by rw [next]; rfl)
      obtain ⟨tail', rfl⟩ := List.head?_eq_some_iff.1 first
      exact other h l tail' same rfl
  | case3 => rfl

theorem Text.joined_ofString (s : String) : joined s = s := by
  have chars : ∀ cs, joined (ofChars cs) = ofChars cs := by
    intro cs
    induction cs with
    | nil => rfl
    | cons c cs ih => exact congrArg (Point.char c :: ·) ih
  exact chars s.toList

namespace Json

theorem escape_unit {p : Point} (beyond : 0x7F ≤ p.toNat) (small : p.toNat < 0x10000) :
    escape p = unitEscape p.toNat := by
  have plain : ¬(p = '"' ∨ p = '\\') := by
    rintro (rfl | rfl) <;> revert beyond <;> decide
  rw [escape, if_neg plain]
  simp (disch := omega) only [if_neg, if_pos]

theorem escape_pair (h l : Fin 0x400) :
    escape (Point.pair h l) = escape (.high h) ++ escape (.low l) := by
  have code : Point.toNat (Point.pair h l) = 0x10000 + h * 0x400 + l := Point.toNat_pair h l
  have plain : ¬((Point.pair h l : Point) = '"' ∨ (Point.pair h l : Point) = '\\') := by
    rintro (same | same) <;> rw [same] at code <;> simp [Point.toNat] at code <;> omega
  have first : 0xD800 + (0x10000 + h.val * 0x400 + l - 0x10000) / 0x400 = (Point.high h).toNat := by
    rw [Point.toNat]
    omega
  have second : 0xDC00 + (0x10000 + h.val * 0x400 + l - 0x10000) % 0x400 = (Point.low l).toNat := by
    rw [Point.toNat]
    omega
  rw [escape_unit (p := .high h), escape_unit (p := .low l), escape, if_neg plain, code]
  · simp (disch := omega) only [if_neg, first, second]
  all_goals
    simp only [Point.toNat]
    omega

theorem quote_joined (text : Text) : quote text.joined = quote text := by
  have same : text.joined.flatMap escape = text.flatMap escape := by
    fun_induction Text.joined text with
    | case1 h l rest ih =>
        rw [List.flatMap_cons, List.flatMap_cons, List.flatMap_cons, ih, escape_pair,
          List.append_assoc]
    | case2 p rest other ih => rw [List.flatMap_cons, List.flatMap_cons, ih]
    | case3 => rfl
  rw [quote, quote, same]

def Scans (text : Text) (token : Token) (rest : Text) : Prop :=
  ∃ p tail, text = p :: tail ∧ isSpace p = false ∧ scan p (tail ++ rest) = (token, tail.length)

section Quoted

variable {offset : Nat} {afterEscape : Bool} {done rest : Text}

theorem scanPoints_unitEscape {u : Nat} (small : u < 0x10000) (more : rest ≠ []) :
    scanPoints offset afterEscape done (unitEscape u ++ rest) =
      scanPoints (offset + 6) true (attach afterEscape (.ofNat u) done) rest := by
  have digits : hexUnit? (Text.hexDigit (u / 16 / 16 / 16 % 16)) (Text.hexDigit (u / 16 / 16 % 16))
      (Text.hexDigit (u / 16 % 16)) (Text.hexDigit (u % 16)) = some u := by
    simp only [hexUnit?, hexValue?, Text.hexValue?_hexDigit _ (Nat.mod_lt _ (Nat.zero_lt_succ 15)),
      Option.bind_eq_bind, Option.bind_some, Option.pure_def, Option.some.injEq]
    omega
  simp only [unitEscape, Text.hex, Text.ofChars, List.map_cons, List.map_nil, List.nil_append,
    List.cons_append, scanPoints, digits]
  simp [more]

theorem scanPoints_printable {p : Point} (quote : p ≠ '"') (backslash : p ≠ '\\')
    (printable : 0x20 ≤ p.toNat) :
    scanPoints offset afterEscape done (p :: rest) =
      scanPoints (offset + 1) false (p :: done) rest := by
  rw [scanPoints, if_neg (by omega)]
  all_goals simp_all

/-- Whether an escape stands right before matters only after the first half of a pair. -/
def Ready (afterEscape : Bool) (done : Text) : Prop :=
  afterEscape = true ∨ ∀ h, done.head? ≠ some (.high h)

theorem Ready.attach_eq (ready : Ready afterEscape done) (p : Point) :
    attach afterEscape p done = attach true p done := by
  obtain rfl | other := ready
  · rfl
  · unfold attach
    split
    · exact absurd rfl (other _)
    · rfl

theorem eq_of_toNat {p : Point} {n : Nat} (h : p.toNat = n) : p = Point.ofNat n := by
  rw [← h, Point.ofNat_toNat]

theorem attach_of_lt {p : Point} (small : p.toNat < 0xD800) : attach true p done = p :: done := by
  cases p with
  | char | high => rfl
  | low bits =>
      simp only [Point.toNat] at small
      omega

theorem attach_attach_pair {p : Point} (large : 0x10000 ≤ p.toNat) :
    attach true (.ofNat (0xDC00 + (p.toNat - 0x10000) % 0x400))
      (attach afterEscape (.ofNat (0xD800 + (p.toNat - 0x10000) / 0x400)) done) =
        attach true p done := by
  cases p with
  | high bits | low bits =>
      simp only [Point.toNat] at large
      omega
  | char c =>
      have valid : c.toNat < 0xD800 ∨ 0xDFFF < c.toNat ∧ c.toNat < 0x110000 := c.valid
      simp only [Point.toNat] at large ⊢
      have first : Point.ofNat (0xD800 + (c.toNat - 0x10000) / 0x400) =
          .high ⟨(c.toNat - 0x10000) / 0x400, by omega⟩ :=
        Point.ofNat_toNat (.high ⟨(c.toNat - 0x10000) / 0x400, by omega⟩)
      have second : Point.ofNat (0xDC00 + (c.toNat - 0x10000) % 0x400) =
          .low ⟨(c.toNat - 0x10000) % 0x400, by omega⟩ :=
        Point.ofNat_toNat (.low ⟨(c.toNat - 0x10000) % 0x400, by omega⟩)
      have same : 0x10000 + (c.toNat - 0x10000) / 0x400 * 0x400 + (c.toNat - 0x10000) % 0x400 =
          c.toNat := by
        omega
      rw [first, second]
      simp only [attach, if_true, Point.pair, same, Char.ofNat_toNat]

theorem scanPoints_escape (offset : Nat) (p : Point) (more : rest ≠ [])
    (ready : Ready afterEscape done) :
    ∃ after, scanPoints offset afterEscape done (escape p ++ rest) =
        scanPoints (offset + (escape p).length) after (attach true p done) rest ∧
      Ready after (attach true p done) := by
  fun_cases escape p with
  | case1 quoted => rcases quoted with rfl | rfl <;> exact ⟨false, rfl, .inr nofun⟩
  | case2 n _ h | case3 n _ _ h | case4 n _ _ _ h | case5 n _ _ _ _ h | case6 n _ _ _ _ _ h =>
      obtain rfl := eq_of_toNat h
      exact ⟨false, rfl, .inr nofun⟩
  | case7 n plain _ _ _ _ _ printable =>
      rw [attach_of_lt (by omega)]
      refine ⟨false, scanPoints_printable (fun h => plain (.inl h)) (fun h => plain (.inr h))
        printable.1, .inr fun h same => ?_⟩
      obtain rfl : p = .high h := Option.some.inj same
      have small : 0xD800 + h.val < 0x7F := printable.2
      omega
  | case8 n _ _ _ _ _ _ _ small =>
      refine ⟨true, ?_, .inl rfl⟩
      rw [scanPoints_unitEscape small more, Point.ofNat_toNat, ready.attach_eq]
      rfl
  | case9 n _ _ _ _ _ _ _ large =>
      have bound : n < 0x110000 := p.toNat_lt
      refine ⟨true, ?_, .inl rfl⟩
      rw [List.append_assoc, scanPoints_unitEscape (by omega) (by simp [unitEscape]),
        scanPoints_unitEscape (by omega) more, attach_attach_pair (Nat.le_of_not_lt large)]
      rfl

theorem scanPoints_flatMap (text : Text) (ready : Ready afterEscape done) :
    scanPoints offset afterEscape done (text.flatMap escape ++ .char '"' :: rest) =
      .ok ((text.foldl (fun done p => attach true p done) done).reverse,
        offset + (text.flatMap escape).length) := by
  induction text generalizing offset afterEscape done with
  | nil => simp [scanPoints]
  | cons p text ih =>
      have more : text.flatMap escape ++ .char '"' :: rest ≠ [] := by simp
      obtain ⟨after, scanned, ready⟩ := scanPoints_escape offset p more ready
      rw [List.flatMap_cons, List.append_assoc, scanned, ih ready]
      simp [Nat.add_assoc]

theorem foldl_attach (text : Text)
    (apart : ∀ h l, done.head? = some (.high h) → text.head? ≠ some (.low l)) :
    text.foldl (fun done p => attach true p done) done = text.joined.reverse ++ done := by
  fun_induction Text.joined text generalizing done with
  | case1 h l rest ih =>
      rw [List.foldl_cons, List.foldl_cons, List.reverse_cons, List.append_assoc]
      exact ih nofun
  | case2 p rest other ih =>
      have own : attach true p done = p :: done := by
        unfold attach
        split
        · exact absurd rfl (apart _ _ rfl)
        · rfl
      rw [List.foldl_cons, own, List.reverse_cons, List.append_assoc]
      refine ih fun h l first next => ?_
      obtain ⟨tail, rfl⟩ := List.head?_eq_some_iff.1 next
      exact other h l tail (Option.some.inj first) rfl
  | case3 => rfl

theorem scans_quote (text rest : Text) : Scans (quote text) (.text text.joined) rest := by
  refine ⟨'"', text.flatMap escape ++ [.char '"'], rfl, rfl, ?_⟩
  have points : scanPoints 1 false [] (text.flatMap escape ++ .char '"' :: rest) = _ :=
    scanPoints_flatMap text (.inr nofun)
  rw [foldl_attach text (by simp), List.append_nil, List.reverse_reverse] at points
  simp only [scan, if_true, scanText, List.append_assoc, List.singleton_append, points]
  simp [Nat.add_comm]

end Quoted

section Numeral

/-- What stands first cannot continue a numeral. -/
def Ends (rest : Text) : Prop :=
  ∀ p ∈ rest.head?, isDigit p = false ∧ p ≠ '.' ∧ p ≠ 'e' ∧ p ≠ 'E'

def decimal (n : Nat) : Text :=
  Text.ofChars (Nat.toDigits 10 n)

variable {rest : Text}

theorem decimal_ne_nil (n : Nat) : decimal n ≠ [] := by
  simp [decimal, Text.ofChars, Nat.toDigits_ne_nil]

theorem isDigit_of_mem_decimal {n : Nat} {p : Point} (h : p ∈ decimal n) : isDigit p = true := by
  obtain ⟨c, digit, rfl⟩ := List.mem_map.1 h
  exact Nat.isDigit_of_mem_toDigits (by decide) (by decide) digit

theorem naturalOf_decimal (n : Nat) : naturalOf (decimal n) = n := by
  rw [naturalOf, decimal, Text.ofChars, List.foldl_map]
  exact Nat.ofDigitChars_toDigits (by decide) (by decide)

theorem head?_toDigits {n : Nat} (pos : 0 < n) : (Nat.toDigits 10 n).head? ≠ some '0' := by
  have digit : ∀ d < 10, 0 < d → Nat.digitChar d ≠ '0' := by decide
  induction n using Nat.strongRecOn with
  | ind n ih =>
      by_cases small : n < 10
      · rw [Nat.toDigits_of_lt_base small]
        simpa using digit n small pos
      · have first := ih (n / 10) (by omega) (by omega)
        rw [Nat.toDigits_of_base_le (by decide) (by omega), List.head?_append]
        cases digits : Nat.toDigits 10 (n / 10) with
        | nil => exact absurd digits Nat.toDigits_ne_nil
        | cons d ds => simpa [digits] using first

theorem Ends.takeWhile (ends : Ends rest) : rest.takeWhile isDigit = [] := by
  cases rest with
  | nil => rfl
  | cons p rest => simp [(ends p rfl).1]

theorem Ends.fractionOf (ends : Ends rest) : fractionOf rest = [] := by
  cases rest with
  | nil => rfl
  | cons p rest =>
      rw [Json.fractionOf]
      intro _ h
      exact (ends p rfl).2.1 (List.cons.inj h).1

theorem Ends.exponentOf? (ends : Ends rest) : exponentOf? rest = none := by
  cases rest with
  | nil => rfl
  | cons p rest =>
      rw [Json.exponentOf?]
      · intro _ h
        exact (ends p rfl).2.2.1 (List.cons.inj h).1
      · intro _ h
        exact (ends p rfl).2.2.2 (List.cons.inj h).1

theorem wholeOf_decimal (n : Nat) (ends : Ends rest) :
    wholeOf (decimal n ++ rest) = decimal n := by
  rcases Nat.eq_zero_or_pos n with rfl | pos
  · rfl
  · have first := head?_toDigits pos
    rw [wholeOf]
    · rw [List.takeWhile_append_of_pos fun _ => isDigit_of_mem_decimal, ends.takeWhile,
        List.append_nil]
    · intro tail equal
      cases digits : Nat.toDigits 10 n with
      | nil => exact Nat.toDigits_ne_nil digits
      | cons d ds =>
          rw [digits] at first
          rw [decimal, digits] at equal
          exact first (congrArg some (Point.char.inj (List.cons.inj equal).1))

theorem scanNumber?_decimal (negative : Bool) (n : Nat) (ends : Ends rest) :
    scanNumber? negative (decimal n ++ rest) =
      some (.integer negative (decimal n), (decimal n).length) := by
  simp [scanNumber?, wholeOf_decimal n ends, ends.fractionOf, ends.exponentOf?, decimal_ne_nil]

theorem mem_digits {p : Point} (h : isDigit p = true) :
    p ∈ ("0123456789" : Text) := by
  have all : ∀ d < 10, .char (Char.ofNat (48 + d)) ∈ ("0123456789" : Text) := by
    decide
  cases p with
  | high | low => cases h
  | char c =>
      obtain ⟨low, high⟩ := Char.isDigit_iff_toNat.1 h
      change 48 ≤ c.toNat at low
      change c.toNat ≤ 57 at high
      have mem := all (c.toNat - 48) (by omega)
      rwa [Nat.add_sub_cancel' low, Char.ofNat_toNat] at mem

theorem scan_digit {d : Point} (digit : isDigit d = true) (text : Text) :
    isSpace d = false ∧
      scan d text = ((scanNumber? false (d :: text)).map fun (token, size) =>
        (token, size - 1)).getD (.stray, 0) ∧
      scan '-' (d :: text) = (scanNumber? true (d :: text)).getD (.stray, 0) := by
  have one : d ∈ [.char '0', .char '1', .char '2', .char '3', .char '4', .char '5', .char '6',
    .char '7', .char '8', .char '9'] := mem_digits digit
  simp only [List.mem_cons, List.not_mem_nil, or_false] at one
  rcases one with rfl | rfl | rfl | rfl | rfl | rfl | rfl | rfl | rfl | rfl <;>
    exact ⟨rfl, rfl, rfl⟩

theorem ofString_toString (n : Int) :
    (toString n : Text) = (if n < 0 then [.char '-'] else []) ++ decimal n.natAbs := by
  rw [Int.toString_eq_repr, Int.repr_eq_if, Text.ofString]
  by_cases sign : 0 ≤ n
  · have same : n.toNat = n.natAbs := by omega
    rw [if_pos sign, if_neg (by omega), Nat.toList_repr, same, List.nil_append]
    rfl
  · have same : (-n).toNat = n.natAbs := by omega
    rw [if_neg sign, if_pos (by omega), String.toList_append, Nat.toList_repr, same]
    rfl

theorem scans_int (n : Int) (ends : Ends rest) :
    Scans (toString n) (.integer (decide (n < 0)) (decimal n.natAbs)) rest := by
  have number := fun negative => scanNumber?_decimal negative n.natAbs ends
  rw [ofString_toString]
  cases digits : decimal n.natAbs with
  | nil => exact absurd digits (decimal_ne_nil _)
  | cons d ds =>
      have digit : isDigit d = true := isDigit_of_mem_decimal (digits ▸ List.mem_cons_self)
      obtain ⟨solid, plain, signed⟩ := scan_digit digit (ds ++ rest)
      rw [digits, List.cons_append] at number
      by_cases sign : n < 0
      · refine ⟨'-', d :: ds, by simp [sign], rfl, ?_⟩
        rw [List.cons_append, signed, number]
        simp [sign]
      · refine ⟨d, ds, by simp [sign], solid, ?_⟩
        rw [plain, number]
        simp [sign]

end Numeral

theorem scans_null (rest : Text) : Scans "null" (.scalar .null) rest :=
  ⟨_, _, rfl, rfl, rfl⟩

theorem scans_bool (value : Bool) (rest : Text) :
    Scans (if value then "true" else "false") (.scalar (.bool value)) rest := by
  cases value with
  | false => exact ⟨_, _, rfl, rfl, rfl⟩
  | true => exact ⟨_, _, rfl, rfl, rfl⟩

end Json

end HindleyMilner
