/-!
Decoding UTF-8. A character that needs several bytes is read as a sequence that still owes some;
the first of them may have a narrower range than the others, which excludes overlong forms,
surrogates, and code points that do not exist.
-/

namespace HindleyMilner.Text.Utf8

inductive Reason where
  | startByte
  | continuationByte
  | endOfData
deriving DecidableEq, Repr

def Reason.message : Reason → String
  | startByte => "invalid start byte"
  | continuationByte => "invalid continuation byte"
  | endOfData => "unexpected end of data"

/-- What is wrong, and at which byte the bad sequence starts. -/
structure Failure where
  reason : Reason
  offset : Nat
deriving DecidableEq, Repr

/-- A sequence begun at `start`: bytes still owed, the range of the next one, and the bits read. -/
structure Sequence where
  start : Nat
  owed : Nat
  low : Nat
  high : Nat
  bits : Nat

def begin? (start byte : Nat) : Option Sequence :=
  if 0xC2 ≤ byte ∧ byte ≤ 0xDF then some ⟨start, 1, 0x80, 0xBF, byte - 0xC0⟩
  else if byte = 0xE0 then some ⟨start, 2, 0xA0, 0xBF, 0⟩
  else if byte = 0xED then some ⟨start, 2, 0x80, 0x9F, 0xD⟩
  else if 0xE1 ≤ byte ∧ byte ≤ 0xEF then some ⟨start, 2, 0x80, 0xBF, byte - 0xE0⟩
  else if byte = 0xF0 then some ⟨start, 3, 0x90, 0xBF, 0⟩
  else if 0xF1 ≤ byte ∧ byte ≤ 0xF3 then some ⟨start, 3, 0x80, 0xBF, byte - 0xF0⟩
  else if byte = 0xF4 then some ⟨start, 3, 0x80, 0x8F, 4⟩
  else none

/-- Decodes from `offset` on. `done` holds the characters read, last first. -/
def decodeFrom (offset : Nat) (pending : Option Sequence) (done : List Char) :
    List UInt8 → Except Failure (List Char)
  | [] =>
      match pending with
      | none => .ok done.reverse
      | some s => .error ⟨.endOfData, s.start⟩
  | byte :: rest =>
      let b := byte.toNat
      match pending with
      | none =>
          if b < 0x80 then decodeFrom (offset + 1) none (Char.ofNat b :: done) rest
          else match begin? offset b with
            | none => .error ⟨.startByte, offset⟩
            | some s => decodeFrom (offset + 1) (some s) done rest
      | some s =>
          if s.low ≤ b ∧ b ≤ s.high then
            let bits := s.bits * 0x40 + (b - 0x80)
            if s.owed ≤ 1 then decodeFrom (offset + 1) none (Char.ofNat bits :: done) rest
            else decodeFrom (offset + 1) (some ⟨s.start, s.owed - 1, 0x80, 0xBF, bits⟩) done rest
          else .error ⟨.continuationByte, s.start⟩

def decode (bytes : List UInt8) : Except Failure (List Char) :=
  decodeFrom 0 none [] bytes

end HindleyMilner.Text.Utf8
