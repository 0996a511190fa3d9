import HindleyMilner.Json.Basic
import HindleyMilner.Text.Hex

/-!
Tokens of the exchange format. `scan` reads the one token that starts at a given character and
says how many further characters belong to it. A text that breaks off inside quotes, and a
character that starts nothing, are tokens too: which complaint they cause depends on where they
stand.
-/

namespace HindleyMilner.Json

/-- What can be wrong with the text of a value. -/
inductive Flaw where
  | byteOrderMark
  | value
  | key
  | colon
  | comma
  | extra
  | unterminated
  | control
  | escape
  | unicodeEscape
deriving DecidableEq, Repr

def Flaw.message : Flaw → String
  | byteOrderMark => "Unexpected UTF-8 BOM (decode using utf-8-sig)"
  | value => "Expecting value"
  | key => "Expecting property name enclosed in double quotes"
  | colon => "Expecting ':' delimiter"
  | comma => "Expecting ',' delimiter"
  | extra => "Extra data"
  | unterminated => "Unterminated string starting at"
  | control => "Invalid control character at"
  | escape => "Invalid \\escape"
  | unicodeEscape => "Invalid \\uXXXX escape"

inductive Token where
  | openArray
  | closeArray
  | openObject
  | closeObject
  | comma
  | colon
  | scalar (value : Json)
  | integer (negative : Bool) (digits : Text)
  | text (value : Text)
  | flawed (flaw : Flaw) (offset : Nat)
  | stray

def isSpace (p : Point) : Bool :=
  p = ' ' || p = '\t' || p = '\n' || p = '\r'

def isDigit : Point → Bool
  | .char c => '0' ≤ c && c ≤ '9'
  | .high _ | .low _ => false

/-- The character that a single letter stands for after a backslash. -/
def unescape? : Point → Option Char
  | .char '"' => some '"'
  | .char '\\' => some '\\'
  | .char '/' => some '/'
  | .char 'b' => some '\x08'
  | .char 'f' => some '\x0c'
  | .char 'n' => some '\n'
  | .char 'r' => some '\r'
  | .char 't' => some '\t'
  | _ => none

def hexValue? : Point → Option Nat
  | .char c => Text.hexValue? c
  | .high _ | .low _ => none

def hexUnit? (a b c d : Point) : Option Nat := do
  let a ← hexValue? a
  let b ← hexValue? b
  let c ← hexValue? c
  let d ← hexValue? d
  return ((a * 16 + b) * 16 + c) * 16 + d

/-- Adds an escaped code point to those before it, last first. With another escape right before it,
it may be the second half of a pair. Halves that stand in the text as they are make no pair. -/
def attach (afterEscape : Bool) : Point → Text → Text
  | .low l, .high h :: done =>
      if afterEscape then Point.pair h l :: done else .low l :: .high h :: done
  | p, done => p :: done

/-- Reads the inside of a quoted text up to its closing quote. `offset` counts from the opening
quote, and `done` holds what was read, last first. Four digits must be followed by a further
character. -/
def scanPoints (offset : Nat) (afterEscape : Bool) (done : Text) :
    Text → Except (Flaw × Nat) (Text × Nat)
  | [] => .error (.unterminated, 0)
  | .char '"' :: _ => .ok (done.reverse, offset)
  | [.char '\\'] => .error (.unterminated, 0)
  | .char '\\' :: .char 'u' :: a :: b :: c :: d :: rest =>
      match hexUnit? a b c d with
      | some u =>
          if rest.isEmpty then .error (.unicodeEscape, offset + 1)
          else scanPoints (offset + 6) true (attach afterEscape (.ofNat u) done) rest
      | none => .error (.unicodeEscape, offset + 1)
  | .char '\\' :: p :: rest =>
      match unescape? p with
      | some c => scanPoints (offset + 2) false (c :: done) rest
      | none => .error (if p = 'u' then (.unicodeEscape, offset + 1) else (.escape, offset))
  | p :: rest =>
      if p.toNat < 0x20 then .error (.control, offset)
      else scanPoints (offset + 1) false (p :: done) rest

def scanText (text : Text) : Token × Nat :=
  match scanPoints 1 false [] text with
  | .ok (value, size) => (.text value, size)
  | .error (flaw, offset) => (.flawed flaw offset, 0)

def naturalOf (digits : Text) : Nat :=
  digits.foldl (fun n p => 10 * n + (p.toNat - 48)) 0

/-- The digits before a point. A leading zero stands alone. -/
def wholeOf : Text → Text
  | .char '0' :: _ => ['0']
  | text => text.takeWhile isDigit

/-- The digits after a point, if there are any. -/
def fractionOf : Text → Text
  | .char '.' :: rest => rest.takeWhile isDigit
  | _ => []

/-- Sign, digits and length of an exponent. -/
def exponentOf? : Text → Option (Bool × Text × Nat)
  | .char 'e' :: rest | .char 'E' :: rest =>
      let (negative, signs, body) := match rest with
        | .char '-' :: body => (true, 1, body)
        | .char '+' :: body => (false, 1, body)
        | body => (false, 0, body)
      let digits := body.takeWhile isDigit
      if digits.isEmpty then none else some (negative, digits, 1 + signs + digits.length)
  | _ => none

/-- A number whose sign has been read: digits without a leading zero, then a fraction and an
exponent if they are complete. -/
def scanNumber? (negative : Bool) (text : Text) : Option (Token × Nat) :=
  let whole := wholeOf text
  if whole.isEmpty then none
  else
    let fraction := fractionOf (text.drop whole.length)
    let size := if fraction.isEmpty then whole.length else whole.length + 1 + fraction.length
    match fraction, exponentOf? (text.drop size) with
    | [], none => some (.integer negative whole, size)
    | _, exponent? =>
        let (falling, power, length) := exponent?.getD (false, [], 0)
        let power : Int := naturalOf power
        let power := (if falling then -power else power) - fraction.length
        some (.scalar (.real (Decimal.ofNumeral negative (naturalOf (whole ++ fraction)) power)),
          size + length)

/-- Words that are values of their own. -/
def words : List (Text × Json) := [
  ("null", .null), ("true", .bool true), ("false", .bool false),
  ("NaN", .real .notANumber), ("Infinity", .real (.infinite false)),
  ("-Infinity", .real (.infinite true))]

def scanWord? (text : Text) : Option (Token × Nat) :=
  (words.find? fun word => word.1.isPrefixOf text).map fun word =>
    (.scalar word.2, word.1.length)

def punctuation? : Point → Option Token
  | .char '[' => some .openArray
  | .char ']' => some .closeArray
  | .char '\x7b' => some .openObject
  | .char '\x7d' => some .closeObject
  | .char ',' => some .comma
  | .char ':' => some .colon
  | _ => none

/-- The token that starts at `p`, and how many of the code points after `p` belong to it. -/
def scan (p : Point) (rest : Text) : Token × Nat :=
  if p = '"' then scanText rest
  else match punctuation? p with
    | some token => (token, 0)
    | none =>
        match scanWord? (p :: rest) with
        | some (token, size) => (token, size - 1)
        | none =>
            let number? := if p = '-' then scanNumber? true rest
              else (scanNumber? false (p :: rest)).map fun (token, size) => (token, size - 1)
            number?.getD (.stray, 0)

end HindleyMilner.Json
