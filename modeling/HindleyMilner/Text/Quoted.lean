import HindleyMilner.Text.Basic
import HindleyMilner.Text.Hex
import HindleyMilner.Text.Printable

/-!
Text quoted inside a message. An apostrophe delimits it, unless the text holds apostrophes and no
double quote. Characters that do not print, and halves of pairs, are written by their code point.
-/

namespace HindleyMilner.Text

def apostrophe : Char := Char.ofNat 39

def delimiter (text : Text) : Char :=
  if text.contains (.char apostrophe) && !text.contains (.char '"') then '"' else apostrophe

private def codePoint (n : Nat) : List Char :=
  if n < 0x100 then '\\' :: 'x' :: hex 2 n
  else if n < 0x10000 then '\\' :: 'u' :: hex 4 n
  else '\\' :: 'U' :: hex 8 n

def quoteChar (mark c : Char) : List Char :=
  if c = mark ∨ c = '\\' then ['\\', c]
  else if c = '\n' then ['\\', 'n']
  else if c = '\r' then ['\\', 'r']
  else if c = '\t' then ['\\', 't']
  else if isPrintable c then [c]
  else codePoint c.toNat

def quotePoint (mark : Char) : Point → List Char
  | .char c => quoteChar mark c
  | half => codePoint half.toNat

def quoted (text : Text) : String :=
  let mark := delimiter text
  String.ofList (mark :: (text.flatMap (quotePoint mark) ++ [mark]))

end HindleyMilner.Text
