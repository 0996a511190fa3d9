import HindleyMilner.Expr.Source
import HindleyMilner.Proofs.WrittenTokens
import Mathlib.Data.List.Chain

/-!
The source text of an expression as a list of lexemes. Words are keywords, symbols, numerals and
names; brackets, spaces and quoted texts stand between them. No word follows another directly, so a
word ends where the next space, bracket or quote stands, and the text determines its lexemes. Two
halves of a pair that stand side by side in a quoted text are spelled as the character they make.
-/

namespace HindleyMilner

namespace Source

inductive Mark where
  | func | arrow | not | cond | yes | no | letIn | recursive | inside
  | literal (value : Bool)
  | symbol (op : Operator)
deriving DecidableEq

def Mark.text : Mark → String
  | func => "fun"
  | arrow => "->"
  | not => "not"
  | cond => "if"
  | yes => "then"
  | no => "else"
  | letIn => "let"
  | recursive => "rec"
  | inside => "in"
  | literal value => if value then "true" else "false"
  | symbol op => op.symbol

inductive Word where
  | mark (mark : Mark)
  | numeral (value : Int)
  | name (name : Text)
deriving DecidableEq

def Word.text : Word → Text
  | mark m => m.text
  | numeral value => toString value
  | name x => x

inductive Lexeme where
  | word (word : Word)
  | quoted (value : Text)
  | space
  | opening
  | closing
deriving DecidableEq

def Lexeme.text : Lexeme → Text
  | word w => w.text
  | quoted value => Json.quote value
  | space => [.char ' ']
  | opening => [.char '(']
  | closing => [.char ')']

def spell (ls : List Lexeme) : Text :=
  ls.flatMap Lexeme.text

@[simp] theorem spell_nil : spell [] = [] := rfl

@[simp] theorem spell_cons (l : Lexeme) (ls : List Lexeme) : spell (l :: ls) = l.text ++ spell ls :=
  List.flatMap_cons

@[simp] theorem spell_append (ls ms : List Lexeme) : spell (ls ++ ms) = spell ls ++ spell ms :=
  List.flatMap_append

def grouped (bare : Bool) (ls : List Lexeme) : List Lexeme :=
  if bare then ls else .opening :: (ls ++ [.closing])

theorem bracket_spell (bare : Bool) (ls : List Lexeme) :
    Expr.bracket bare (spell ls) = spell (grouped bare ls) := by
  cases bare with
  | false => simp [Expr.bracket, grouped, Lexeme.text, Text.ofString, Text.ofChars]
  | true => rfl

end Source

namespace Expr

variable {ν : Type}

open Source

def lexemes : Expr ν → List Lexeme
  | int _ value => [.word (.numeral value)]
  | bool _ value => [.word (.mark (.literal value))]
  | str _ value => [.quoted value.joined]
  | ident _ name => [.word (.name name)]
  | func _ parameter body =>
      .word (.mark .func) :: .space :: .word (.name parameter) :: .space :: .word (.mark .arrow) ::
        .space :: body.lexemes
  | not _ operand => .word (.mark .not) :: .space :: grouped operand.isAtom operand.lexemes
  | binary _ op left right =>
      grouped left.isAtom left.lexemes ++ .space :: .word (.mark (.symbol op)) :: .space ::
        grouped right.isAtom right.lexemes
  | cond _ test yes no =>
      .word (.mark .cond) :: .space :: (test.lexemes ++ .space :: .word (.mark .yes) :: .space ::
        (yes.lexemes ++ .space :: .word (.mark .no) :: .space :: no.lexemes))
  | call _ callee argument =>
      grouped callee.isHead callee.lexemes ++ .space :: grouped argument.isAtom argument.lexemes
  | letIn _ name recursive value body =>
      .word (.mark .letIn) :: .space ::
        ((if recursive then [.word (.mark .recursive), .space] else []) ++
          .word (.name name) :: .space :: .word (.mark (.symbol .equal)) :: .space ::
            (value.lexemes ++ .space :: .word (.mark .inside) :: .space :: body.lexemes))

theorem source_eq (e : Expr ν) : e.source = Text.limited e.numerals (spell e.lexemes) := by
  induction e with
  | int | ident | str =>
      simp [source, Text.numeral, numerals, lexemes, Lexeme.text, Word.text, Json.quote_joined]
  | bool _ value =>
      cases value <;> simp [source, numerals, lexemes, Lexeme.text, Word.text, Mark.text]
  | func _ parameter body ih =>
      simp [source, ih, numerals, lexemes, Lexeme.text, Word.text, Mark.text, Text.ofString,
        Text.ofChars]
  | not _ operand ih =>
      simp [source, ih, numerals, bracket_spell, lexemes, Lexeme.text, Word.text, Mark.text,
        Text.ofString, Text.ofChars]
  | binary _ op left right ihl ihr =>
      simp [source, ihl, ihr, numerals, bracket_spell, lexemes, Lexeme.text, Word.text, Mark.text,
        Text.ofString, Text.ofChars]
  | cond _ test yes no iht ihy ihn =>
      simp [source, iht, ihy, ihn, numerals, lexemes, Lexeme.text, Word.text, Mark.text,
        Text.ofString, Text.ofChars]
  | call _ callee argument ihc iha =>
      simp [source, ihc, iha, numerals, bracket_spell, lexemes, Lexeme.text, Text.ofString,
        Text.ofChars]
  | letIn _ name recursive value body ihv ihb =>
      cases recursive <;>
        simp [source, ihv, ihb, numerals, lexemes, Lexeme.text, Word.text, Mark.text,
          Operator.symbol, Text.ofString, Text.ofChars]

end Expr

namespace Source

def keywords : List Text :=
  ["fun", "let", "rec", "in", "if", "then", "else", "not", "true", "false"]

/-- Every character beyond ASCII is taken for a letter. -/
def isLetter : Point → Bool
  | .char c => c.isAlpha || 0x80 ≤ c.toNat
  | .high _ | .low _ => false

/-- A letter or underscore, then letters, digits, underscores and primes, but no keyword. -/
def isName (x : Text) : Bool :=
  x.head?.any (fun p => isLetter p || p = '_') &&
    x.tail.all (fun p => isLetter p || Json.isDigit p || p = '_' || p = '\'') &&
    !keywords.contains x

theorem points_of_isName {x : Text} (h : isName x = true) :
    (∃ p ∈ x.head?, isLetter p ∨ p = '_') ∧
      ∀ p ∈ x.tail, isLetter p ∨ Json.isDigit p ∨ p = '_' ∨ p = '\'' := by
  simp only [isName, Bool.and_eq_true, Option.any_eq_true, List.all_eq_true, Bool.or_eq_true,
    decide_eq_true_eq, or_assoc] at h
  exact h.1

def isDelimiter (p : Point) : Bool :=
  p = ' ' || p = '"' || p = '(' || p = ')'

theorem isDelimiter_of_part {p : Point}
    (h : isLetter p ∨ Json.isDigit p ∨ p = '_' ∨ p = '\'') : isDelimiter p = false := by
  cases delimiter : isDelimiter p with
  | false => rfl
  | true =>
      simp only [isDelimiter, Bool.or_eq_true, decide_eq_true_eq, or_assoc] at delimiter
      rcases delimiter with rfl | rfl | rfl | rfl <;> revert h <;> decide

theorem isLetter_of_isDigit {p : Point} (h : Json.isDigit p = true) : isLetter p = false := by
  have digits : ∀ p ∈ ("0123456789" : Text), isLetter p = false := by decide
  exact digits p (Json.mem_digits h)

namespace Mark

def all : List Mark :=
  [func, arrow, not, cond, yes, no, letIn, recursive, inside, literal true, literal false] ++
    Operator.all.map symbol

def ofText? (text : String) : Option Mark :=
  all.find? fun m => m.text = text

theorem ofText?_text (m : Mark) : ofText? m.text = some m := by
  cases m with
  | literal value => cases value <;> rfl
  | symbol op => cases op <;> rfl
  | func | arrow | not | cond | yes | no | letIn | recursive | inside => rfl

theorem text_injective {m n : Mark} (h : m.text = n.text) : m = n := by
  have same : some m = some n := by rw [← ofText?_text m, h, ofText?_text]
  exact Option.some.inj same

theorem solid (m : Mark) : (m.text : Text) ≠ [] ∧
    ∀ p ∈ (m.text : Text), isDelimiter p = false ∧ Json.isDigit p = false := by
  cases m with
  | literal value => cases value <;> decide
  | symbol op => cases op <;> decide
  | func | arrow | not | cond | yes | no | letIn | recursive | inside => decide

theorem isName_text (m : Mark) : isName m.text = false := by
  cases m with
  | literal value => cases value <;> rfl
  | symbol op => cases op <;> rfl
  | func | arrow | not | cond | yes | no | letIn | recursive | inside => rfl

end Mark

theorem solid_of_isName {x : Text} (h : isName x = true) :
    x ≠ [] ∧ ∀ p ∈ x, isDelimiter p = false := by
  obtain ⟨⟨p, first, start⟩, more⟩ := points_of_isName h
  rw [List.eq_cons_of_mem_head? first]
  refine ⟨List.cons_ne_nil p _, List.forall_mem_cons.2 ⟨?_, fun q hq => ?_⟩⟩
  · exact isDelimiter_of_part (start.imp_right fun underscore => .inr (.inl underscore))
  · exact isDelimiter_of_part (more q hq)

theorem solid_append_inj {α : Type} {stops : α → Bool} {cs ds rest rest' : List α}
    (solid : ∀ c ∈ cs, stops c = false) (solid' : ∀ c ∈ ds, stops c = false)
    (ends : ∀ c ∈ rest.head?, stops c = true) (ends' : ∀ c ∈ rest'.head?, stops c = true)
    (same : cs ++ rest = ds ++ rest') : cs = ds ∧ rest = rest' := by
  have front : ∀ {es more : List α}, (∀ c ∈ es, stops c = false) →
      (∀ c ∈ more.head?, stops c = true) → (es ++ more).takeWhile (fun c => !stops c) = es := by
    intro es more solid ends
    rw [List.takeWhile_append_of_pos (fun c hc => by rw [solid c hc]; rfl)]
    cases more with
    | nil => exact List.append_nil es
    | cons c more => simp [ends c rfl]
  have texts : cs = ds := by rw [← front solid ends, same, front solid' ends']
  rw [texts] at same
  exact ⟨texts, List.append_cancel_left same⟩

section Numeral

variable (n : Int)

theorem mem_toString {p : Point} (h : p ∈ (toString n : Text)) :
    p = '-' ∨ Json.isDigit p = true := by
  rw [Json.ofString_toString] at h
  rcases List.mem_append.1 h with sign | digit
  · split at sign
    · exact .inl (List.mem_singleton.1 sign)
    · cases sign
  · exact .inr (Json.isDigit_of_mem_decimal digit)

theorem exists_digit_toString : ∃ p ∈ (toString n : Text), Json.isDigit p = true := by
  have digit := List.head_mem (Json.decimal_ne_nil n.natAbs)
  rw [Json.ofString_toString]
  exact ⟨_, List.mem_append_right _ digit, Json.isDigit_of_mem_decimal digit⟩

theorem toString_solid :
    (toString n : Text) ≠ [] ∧ ∀ p ∈ (toString n : Text), isDelimiter p = false := by
  obtain ⟨d, hd, -⟩ := exists_digit_toString n
  refine ⟨List.ne_nil_of_mem hd, fun p hp => ?_⟩
  rcases mem_toString n hp with rfl | digit
  · rfl
  · exact isDelimiter_of_part (.inr (.inl digit))

theorem isName_toString : isName (toString n) = false := by
  cases h : isName (toString n) with
  | false => rfl
  | true =>
      obtain ⟨⟨p, first, start⟩, -⟩ := points_of_isName h
      rcases mem_toString n (List.mem_of_mem_head? first) with rfl | digit
      · revert start
        decide
      · rcases start with letter | rfl
        · rw [isLetter_of_isDigit digit] at letter
          cases letter
        · cases digit

theorem toString_injective {n m : Int} (h : (toString n : Text) = toString m) : n = m := by
  have ends : Json.Ends [] := nofun
  obtain ⟨p, tail, split, -, scanned⟩ := Json.scans_int n ends
  obtain ⟨p', tail', split', -, scanned'⟩ := Json.scans_int m ends
  rw [h, split'] at split
  obtain ⟨rfl, rfl⟩ := List.cons.inj split
  rw [scanned'] at scanned
  simp only [Prod.mk.injEq, Json.Token.integer.injEq, decide_eq_decide, and_true] at scanned
  have size : m.natAbs = n.natAbs := by
    rw [← Json.naturalOf_decimal m.natAbs, scanned.2, Json.naturalOf_decimal]
  omega

end Numeral

namespace Word

def Valid : Word → Prop
  | mark _ | numeral _ => True
  | name x => isName x = true

variable {v w : Word}

theorem Valid.solid (h : w.Valid) : w.text ≠ [] ∧ ∀ p ∈ w.text, isDelimiter p = false := by
  cases w with
  | mark m => exact ⟨m.solid.1, fun p hp => (m.solid.2 p hp).1⟩
  | numeral value => exact toString_solid value
  | name x => exact solid_of_isName h

theorem mark_ne_numeral (m : Mark) (n : Int) : (m.text : Text) ≠ toString n := by
  intro same
  obtain ⟨p, hp, digit⟩ := exists_digit_toString n
  rw [← same] at hp
  rw [(m.solid.2 p hp).2] at digit
  cases digit

theorem name_ne_mark {x : Text} (h : isName x = true) (m : Mark) : x ≠ m.text := by
  rintro rfl
  rw [m.isName_text] at h
  cases h

theorem name_ne_numeral {x : Text} (h : isName x = true) (n : Int) : x ≠ toString n := by
  rintro rfl
  rw [isName_toString n] at h
  cases h

theorem text_injective (hv : v.Valid) (hw : w.Valid) (h : v.text = w.text) : v = w := by
  cases v with
  | mark m =>
      cases w with
      | mark n => rw [Mark.text_injective (Text.ofString_inj.1 h)]
      | numeral n => exact absurd h (mark_ne_numeral m n)
      | name x => exact absurd h.symm (name_ne_mark hw m)
  | numeral n =>
      cases w with
      | mark m => exact absurd h.symm (mark_ne_numeral m n)
      | numeral m => rw [toString_injective h]
      | name x => exact absurd h.symm (name_ne_numeral hw n)
  | name x =>
      cases w with
      | mark m => exact absurd h (name_ne_mark hv m)
      | numeral n => exact absurd h (name_ne_numeral hv n)
      | name y => exact congrArg name h

theorem text_append_inj {rest rest' : Text} (hv : v.Valid) (hw : w.Valid)
    (ends : ∀ p ∈ rest.head?, isDelimiter p = true)
    (ends' : ∀ p ∈ rest'.head?, isDelimiter p = true)
    (same : v.text ++ rest = w.text ++ rest') : v = w ∧ rest = rest' := by
  obtain ⟨texts, rests⟩ := solid_append_inj hv.solid.2 hw.solid.2 ends ends' same
  exact ⟨text_injective hv hw texts, rests⟩

end Word

namespace Lexeme

def isWord : Lexeme → Bool
  | word _ => true
  | quoted _ | space | opening | closing => false

def Valid : Lexeme → Prop
  | word w => w.Valid
  | quoted value => value.joined = value
  | space | opening | closing => True

variable {l m : Lexeme} {w : Word} {rest rest' : Text}

theorem text_of_isWord_eq_false (h : l.isWord = false) :
    ∃ p tail, l.text = p :: tail ∧ isDelimiter p = true := by
  cases l with
  | word => cases h
  | quoted | space | opening | closing => exact ⟨_, _, rfl, rfl⟩

theorem text_ne_nil (valid : l.Valid) : l.text ≠ [] := by
  cases h : l.isWord with
  | true =>
      cases l with
      | word => exact (Word.Valid.solid valid).1
      | quoted | space | opening | closing => cases h
  | false =>
      obtain ⟨p, tail, split, -⟩ := text_of_isWord_eq_false h
      rw [split]
      exact List.cons_ne_nil p tail

theorem word_text_append_ne (valid : w.Valid) (h : l.isWord = false) :
    (word w).text ++ rest ≠ l.text ++ rest' := by
  obtain ⟨p, tail, split, delimiter⟩ := text_of_isWord_eq_false h
  obtain ⟨q, tail', first⟩ := List.exists_cons_of_ne_nil valid.solid.1
  intro same
  rw [Lexeme.text, first, split] at same
  obtain ⟨rfl, -⟩ := List.cons.inj same
  rw [valid.solid.2 q (first ▸ List.mem_cons_self)] at delimiter
  cases delimiter

end Lexeme

theorem quote_append_inj {s t rest rest' : Text} (hs : s.joined = s) (ht : t.joined = t)
    (same : Json.quote s ++ rest = Json.quote t ++ rest') : s = t ∧ rest = rest' := by
  obtain ⟨p, tail, split, -, scanned⟩ := Json.scans_quote s rest
  obtain ⟨p', tail', split', -, scanned'⟩ := Json.scans_quote t rest'
  have texts : p :: (tail ++ rest) = p' :: (tail' ++ rest') := by
    rw [← List.cons_append, ← split, same, split', List.cons_append]
  obtain ⟨rfl, follows⟩ := List.cons.inj texts
  rw [follows, scanned', hs, ht] at scanned
  simp only [Prod.mk.injEq, Json.Token.text.injEq] at scanned
  obtain ⟨rfl, -⟩ := scanned
  exact ⟨rfl, List.append_cancel_left same⟩

/-- Names are names, and no word follows another directly. -/
structure Spelled (ls : List Lexeme) : Prop where
  valid : ∀ l ∈ ls, l.Valid
  spaced : ls.IsChain fun l m => l.isWord = true → m.isWord = false

namespace Spelled

variable {l m : Lexeme} {ls ms : List Lexeme} {w : Word}

theorem tail (h : Spelled (l :: ls)) : Spelled ls :=
  ⟨fun m hm => h.valid m (List.mem_cons_of_mem l hm), h.spaced.tail⟩

theorem single (valid : l.Valid) : Spelled [l] :=
  ⟨fun _ hm => List.mem_singleton.1 hm ▸ valid, .singleton l⟩

theorem cons (valid : l.Valid) (other : l.isWord = false) (h : Spelled ls) : Spelled (l :: ls) := by
  refine ⟨List.forall_mem_cons.2 ⟨valid, h.valid⟩, List.isChain_cons.2 ⟨?_, h.spaced⟩⟩
  intro _ _ word
  rw [other] at word
  cases word

theorem append (h : Spelled ls) (h' : Spelled ms) (apart : ∀ m ∈ ms.head?, m.isWord = false) :
    Spelled (ls ++ ms) :=
  ⟨List.forall_mem_append.2 ⟨h.valid, h'.valid⟩,
    List.isChain_append.2 ⟨h.spaced, h'.spaced, fun _ _ m first _ => apart m first⟩⟩

theorem append_space (h : Spelled ls) (h' : Spelled ms) : Spelled (ls ++ .space :: ms) :=
  h.append (.cons trivial rfl h') fun _ first => Option.some.inj first ▸ rfl

theorem cons_space (valid : l.Valid) (h : Spelled ls) : Spelled (l :: .space :: ls) :=
  (single valid).append_space h

theorem grouped (bare : Bool) (h : Spelled ls) : Spelled (grouped bare ls) := by
  cases bare with
  | true => exact h
  | false =>
      have closed : Spelled (ls ++ [.closing]) :=
        h.append (single trivial) fun _ first => Option.some.inj first ▸ rfl
      exact closed.cons trivial rfl

theorem ends (h : Spelled (.word w :: ls)) : ∀ p ∈ (spell ls).head?, isDelimiter p = true := by
  cases ls with
  | nil => exact nofun
  | cons m ls =>
      have other : m.isWord = false := (List.isChain_cons_cons.1 h.spaced).1 rfl
      obtain ⟨p, tail, split, delimiter⟩ := Lexeme.text_of_isWord_eq_false other
      rw [spell_cons, split]
      intro q hq
      cases hq
      exact delimiter

theorem cons_inj (h : Spelled (l :: ls)) (h' : Spelled (m :: ms))
    (same : spell (l :: ls) = spell (m :: ms)) : l = m ∧ spell ls = spell ms := by
  have valid : l.Valid := h.valid l List.mem_cons_self
  have valid' : m.Valid := h'.valid m List.mem_cons_self
  rw [spell_cons, spell_cons] at same
  cases l with
  | word w =>
      cases m with
      | word v =>
          obtain ⟨rfl, rest⟩ := Word.text_append_inj valid valid' h.ends h'.ends same
          exact ⟨rfl, rest⟩
      | quoted | space | opening | closing =>
          exact absurd same (Lexeme.word_text_append_ne valid rfl)
  | quoted s =>
      cases m with
      | word v => exact absurd same.symm (Lexeme.word_text_append_ne valid' rfl)
      | quoted t =>
          obtain ⟨rfl, rest⟩ := quote_append_inj valid valid' same
          exact ⟨rfl, rest⟩
      | space | opening | closing => simp [Lexeme.text, Json.quote] at same
  | space | opening | closing =>
      cases m with
      | word v => exact absurd same.symm (Lexeme.word_text_append_ne valid' rfl)
      | quoted | space | opening | closing =>
          simp [Lexeme.text, Json.quote] at same ⊢ <;> exact same

theorem ne_nil (h : Spelled (l :: ls)) : spell (l :: ls) ≠ [] := by
  rw [spell_cons]
  exact List.append_ne_nil_of_left_ne_nil
    (Lexeme.text_ne_nil (h.valid l List.mem_cons_self)) (spell ls)

theorem spell_injective (h : Spelled ls) (h' : Spelled ms) (same : spell ls = spell ms) :
    ls = ms := by
  induction ls generalizing ms with
  | nil =>
      cases ms with
      | nil => rfl
      | cons m ms => exact absurd same.symm h'.ne_nil
  | cons l ls ih =>
      cases ms with
      | nil => exact absurd same h.ne_nil
      | cons m ms =>
          obtain ⟨rfl, rest⟩ := cons_inj h h' same
          rw [ih h.tail h'.tail rest]

end Spelled

end Source

namespace Expr

variable {ν : Type}

open Source

theorem spelled_lexemes {e : Expr ν} (h : ∀ x ∈ e.names, isName x = true) : Spelled e.lexemes := by
  induction e with
  | int | bool => exact .single trivial
  | str _ value => exact .single value.joined_joined
  | ident _ name => exact .single (h name List.mem_cons_self)
  | func _ parameter body ih =>
      obtain ⟨name, inner⟩ := List.forall_mem_cons.1 h
      exact .cons_space trivial (.cons_space name (.cons_space trivial (ih inner)))
  | not _ operand ih => exact .cons_space trivial ((ih h).grouped _)
  | binary _ op left right ihl ihr =>
      obtain ⟨hl, hr⟩ := List.forall_mem_append.1 h
      exact ((ihl hl).grouped _).append_space (.cons_space trivial ((ihr hr).grouped _))
  | cond _ test yes no iht ihy ihn =>
      obtain ⟨ht, hyn⟩ := List.forall_mem_append.1 h
      obtain ⟨hy, hn⟩ := List.forall_mem_append.1 hyn
      have branches : Spelled (yes.lexemes ++ .space :: .word (.mark .no) :: .space ::
          no.lexemes) := (ihy hy).append_space (.cons_space trivial (ihn hn))
      exact .cons_space trivial ((iht ht).append_space (.cons_space trivial branches))
  | call _ callee argument ihc iha =>
      obtain ⟨hc, ha⟩ := List.forall_mem_append.1 h
      exact ((ihc hc).grouped _).append_space ((iha ha).grouped _)
  | letIn _ name recursive value body ihv ihb =>
      obtain ⟨named, inner⟩ := List.forall_mem_cons.1 h
      obtain ⟨hv, hb⟩ := List.forall_mem_append.1 inner
      have scope : Spelled (value.lexemes ++ .space :: .word (.mark .inside) :: .space ::
          body.lexemes) := (ihv hv).append_space (.cons_space trivial (ihb hb))
      cases recursive with
      | false =>
          exact .cons_space trivial (.cons_space named (.cons_space trivial scope))
      | true =>
          exact .cons_space trivial
            (.cons_space trivial (.cons_space named (.cons_space trivial scope)))

end Expr

end HindleyMilner
