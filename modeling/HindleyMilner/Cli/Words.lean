import HindleyMilner.Text.Digits
import HindleyMilner.Text.Numeral
import HindleyMilner.Text.Quoted

/-!
Reading the words of a command line. Options may be shortened to a unique beginning, a value may
follow in the same word after an equals sign, and several one-letter options may share a word.
After a double dash every word is an operand, and a double dash is never a value itself.

Words become items in the order in which they take effect, so the first item that ends the
program wins.
-/

namespace HindleyMilner.Cli

structure Opt (ι : Type) where
  id : ι
  names : List String
  takesValue : Bool

/-- A grammar has options and one operand: a single word, or a word with all that follow it. -/
structure Grammar (ι : Type) where
  options : List (Opt ι)
  takesRest : Bool

inductive Complaint where
  | valueMissing
  | valueIgnored (value : String)
deriving DecidableEq, Repr

def Complaint.message : Complaint → String
  | valueMissing => "expected one argument"
  | valueIgnored value => "ignored explicit argument " ++ Text.quoted value

/-- An option without a value is a flag, or its value was a double dash. -/
inductive Item (ι : Type) where
  | option (opt : Opt ι) (value : Option String)
  | operand (words : List String)
  | extra (word : String)
  | refused (opt : Opt ι) (complaint : Complaint)

/-- An option as it was spelled, with the text that follows in the same word. -/
structure Spelled (ι : Type) where
  opt : Opt ι
  name : String
  value : Option String := none

/-- What a word is on its own. -/
inductive WordKind (ι : Type) where
  | plain
  | divider
  | known (spelled : Spelled ι)
  | unknown

/-- A word that could be short for several options. -/
structure Ambiguity where
  word : String
  matching : List String
deriving DecidableEq, Repr

def Ambiguity.message (a : Ambiguity) : String :=
  "ambiguous option: " ++ a.word ++ " could match " ++ ", ".intercalate a.matching

namespace Grammar

variable {ι : Type} (g : Grammar ι)

/-- Every spelling with its option, in order. -/
def spellings : List (String × Opt ι) :=
  g.options.flatMap fun opt => opt.names.map fun name => (name, opt)

def find? (name : String) : Option (Opt ι) :=
  g.spellings.lookup name

/-- A word cut at its first equals sign. -/
def cut (word : String) : String × Option String :=
  match word.toList.span (· ≠ '=') with
  | (name, []) => (String.ofList name, none)
  | (name, _ :: value) => (String.ofList name, some (String.ofList value))

/-- The options that a word with a leading dash can be short for. -/
def candidates (word : String) : List (Spelled ι) :=
  let cs := word.toList
  if cs.take 2 = ['-', '-'] then
    let (name, value) := cut word
    g.spellings.filterMap fun (full, opt) =>
      if name.toList.isPrefixOf full.toList then
        some { opt, name := full, value }
      else none
  else
    g.spellings.filterMap fun (full, opt) =>
      if full.toList = cs.take 2 then
        some { opt, name := full, value := some (String.ofList (cs.drop 2)) }
      else if cs.isPrefixOf full.toList then some { opt, name := full }
      else none

/-- A dash before digits, with a point among them or not. -/
def looksNegative (word : String) : Bool :=
  let isDigit := fun c => (Text.digit? c).isSome
  let cs := word.toList
  let cs := if cs.getLast? = some '\n' then cs.dropLast else cs
  match cs with
  | '-' :: rest =>
      match rest.span isDigit with
      | (whole, []) => !whole.isEmpty
      | (_, '.' :: fraction) => !fraction.isEmpty && fraction.all isDigit
      | _ => false
  | _ => false

def sort (word : String) : Except Ambiguity (WordKind ι) :=
  if word = "" ∨ word = "-" ∨ word.toList.head? ≠ some '-' then .ok .plain
  else match g.find? word with
    | some opt => .ok (.known { opt, name := word })
    | none =>
        let (name, value) := cut word
        match value, g.find? name with
        | some value, some opt => .ok (.known { opt, name, value := some value })
        | _, _ =>
            match g.candidates word with
            | [spelled] => .ok (.known spelled)
            | [] =>
                if looksNegative word || word.toList.contains ' ' then .ok .plain
                else .ok .unknown
            | several => .error ⟨word, several.map Spelled.name⟩

/-- Sorts words up to the first double dash, after which all are plain. -/
def sortAll : List String → Except Ambiguity (List (String × WordKind ι))
  | [] => .ok []
  | word :: rest =>
      if word = "--" then
        .ok ((word, .divider) :: rest.map fun word => (word, .plain))
      else do
        let own ← g.sort word
        let others ← sortAll rest
        return (word, own) :: others

/-- One-letter options that share a word: those before the last, and the last with a value in the
word or none. A flag refuses what follows it if that does not start with a letter of an option. -/
inductive Cluster (ι : Type) where
  | last (before : List (Opt ι)) (opt : Opt ι) (value : Option String)
  | refused (opt : Opt ι) (value : String)

def Cluster.after (opt : Opt ι) : Cluster ι → Cluster ι
  | .last before final value => .last (opt :: before) final value
  | .refused opt value => .refused opt value

/-- Takes a short option with the letters after it. -/
def cluster (opt : Opt ι) : List Char → Cluster ι
  | [] => .last [] opt none
  | c :: rest =>
      if opt.takesValue then .last [] opt (some (String.ofList (c :: rest)))
      else match g.find? (String.ofList ['-', c]) with
        | none => .refused opt (String.ofList (c :: rest))
        | some next => (cluster next rest).after opt

/-- How a spelled option unfolds. Only a short flag can be followed by further letters, and an
equals sign before them changes nothing. -/
def unfold (s : Spelled ι) : Cluster ι :=
  match s.value with
  | none => .last [] s.opt none
  | some value =>
      if s.opt.takesValue then .last [] s.opt (some value)
      else if value = "" ∨ s.name.toList.take 2 = ['-', '-'] then .refused s.opt value
      else g.cluster s.opt value.toList

private def flags (opts : List (Opt ι)) : List (Item ι) :=
  opts.map fun opt => .option opt none

/-- The items of sorted words. `due` says that the operand has not been found yet. -/
def items (due : Bool) : List (String × WordKind ι) → List (Item ι)
  | [] => []
  | (word, .unknown) :: rest => .extra word :: items due rest
  | (_, .known spelled) :: rest =>
      match g.unfold spelled with
      | .refused opt value => [.refused opt (.valueIgnored value)]
      | .last before opt value =>
          if opt.takesValue && value.isNone then
            match rest with
            | (value, .plain) :: rest =>
                flags before ++ .option opt (some value) :: items due rest
            | _ => [.refused opt .valueMissing]
          else flags before ++ .option opt (value.filter (· ≠ "--")) :: items due rest
  | (word, .divider) :: rest =>
      match due, rest with
      | true, (operand, _) :: rest =>
          if g.takesRest then [.operand (word :: operand :: rest.map Prod.fst)]
          else .operand [operand] :: items false rest
      | _, rest => .extra word :: items false rest
  | (word, .plain) :: rest =>
      if due then
        if g.takesRest then [.operand (word :: rest.map Prod.fst)]
        else match rest with
          | (_, .divider) :: rest => .operand [word] :: items false rest
          | rest => .operand [word] :: items false rest
      else .extra word :: items false rest

end Grammar

end HindleyMilner.Cli
