import HindleyMilner.Cli.Usage
import HindleyMilner.Cli.Words

/-!
What a command line asks for. Items take effect in order; help, the version and every mistake end
the reading at once.
-/

namespace HindleyMilner.Cli

/-- What the program leaves behind. -/
structure Output where
  exit : Nat
  stdout : Text := []
  stderr : Text := []
deriving DecidableEq, Repr

inductive Level where
  | debug | info | warning | error
deriving DecidableEq, Repr

def Level.name : Level → String
  | debug => "debug"
  | info => "info"
  | warning => "warning"
  | error => "error"

def Level.all : List Level :=
  [.debug, .info, .warning, .error]

inductive Action where
  | infer
  | display
deriving DecidableEq, Repr

def Action.speaker : Action → Speaker
  | infer => .infer
  | display => .display

/-- The names of the commands. One has a short name too. -/
def Action.names : List (String × Action) :=
  [("infer", .infer), ("i", .infer), ("show", .display)]

/-- A recursion limit that was named without a number is missing. -/
structure Command where
  action : Action
  input : Option String := none
  annotated : Bool := false
  constraints : Bool := false
  json : Bool := false
  recursionLimit : Option Int := some 10000
deriving DecidableEq, Repr

/-- What has been read so far. A level that was asked for without a name is missing. Words that
belong nowhere are kept to be complained about. -/
structure Request where
  level : Option Level := some .warning
  command : Option Command := none
  extras : List String := []
deriving DecidableEq, Repr

inductive ProgramOption where
  | help | version | logLevel
deriving DecidableEq, Repr

inductive CommandOption where
  | help | annotated | constraints | json | recursionLimit
deriving DecidableEq, Repr

def programGrammar : Grammar ProgramOption where
  options := [
    ⟨.help, ["-h", "--help"], false⟩,
    ⟨.version, ["-V", "--version"], false⟩,
    ⟨.logLevel, ["--log-level"], true⟩]
  takesRest := true

def commandGrammar : Action → Grammar CommandOption
  | .infer => {
      options := [
        ⟨.help, ["-h", "--help"], false⟩,
        ⟨.annotated, ["--annotated"], false⟩,
        ⟨.constraints, ["--constraints"], false⟩,
        ⟨.json, ["--json"], false⟩,
        ⟨.recursionLimit, ["--recursion-limit"], true⟩]
      takesRest := false }
  | .display => {
      options := [
        ⟨.help, ["-h", "--help"], false⟩,
        ⟨.recursionLimit, ["--recursion-limit"], true⟩]
      takesRest := false }

/-- The end of the reading in a mistake. -/
def Speaker.mistake {α : Type} (speaker : Speaker) (message : String) : Except Output α :=
  .error { exit := 2, stderr := speaker.complain message }

def Opt.label {ι : Type} (opt : Opt ι) : String :=
  "argument " ++ "/".intercalate opt.names ++ ": "

def choice (value : String) (choices : List String) : String :=
  "invalid choice: " ++ Text.quoted value ++ " (choose from " ++
    ", ".intercalate (choices.map fun (name : String) => Text.quoted name) ++ ")"

namespace Command

def takeOption (command : Command) (opt : Opt CommandOption) (value : Option String) :
    Except Output Command :=
  let speaker := command.action.speaker
  match opt.id with
  | .help => .error { exit := 0, stdout := speaker.help }
  | .annotated => .ok { command with annotated := true }
  | .constraints => .ok { command with constraints := true }
  | .json => .ok { command with json := true }
  | .recursionLimit =>
      match value with
      | none => .ok { command with recursionLimit := none }
      | some value =>
          match Text.integer? Text.digitLimit value with
          | some n => .ok { command with recursionLimit := some n }
          | none => speaker.mistake (opt.label ++ "invalid int value: " ++ Text.quoted value)

/-- Takes one item. The words that belong nowhere are collected beside the command. -/
def take (read : Command × List String) (item : Item CommandOption) :
    Except Output (Command × List String) :=
  let (command, extras) := read
  match item with
  | .option opt value => do
      let command ← command.takeOption opt value
      return (command, extras)
  | .operand words => .ok ({ command with input := words.head? }, extras)
  | .extra word => .ok (command, extras ++ [word])
  | .refused opt complaint => command.action.speaker.mistake (opt.label ++ complaint.message)

/-- Reads the words after the name of a command. -/
def ofWords (action : Action) (words : List String) : Except Output (Command × List String) := do
  let grammar := commandGrammar action
  let sorted ← match grammar.sortAll words with
    | .ok sorted => pure sorted
    | .error ambiguity => action.speaker.mistake ambiguity.message
  let (command, extras) ← (grammar.items true sorted).foldlM take ({ action }, [])
  if command.input.isNone then
    action.speaker.mistake "the following arguments are required: input"
  return (command, extras)

end Command

namespace Request

def takeOption (request : Request) (opt : Opt ProgramOption) (value : Option String) :
    Except Output Request :=
  match opt.id with
  | .help => .error { exit := 0, stdout := Speaker.program.help }
  | .version => .error { exit := 0, stdout := versionLine }
  | .logLevel =>
      match value with
      | none => .ok { request with level := none }
      | some value =>
          match Level.all.find? fun level => level.name = value with
          | some level => .ok { request with level := some level }
          | none =>
              Speaker.program.mistake (opt.label ++ choice value (Level.all.map Level.name))

def take (request : Request) : Item ProgramOption → Except Output Request
  | .option opt value => request.takeOption opt value
  | .operand words =>
      let name := words.headD ""
      match Action.names.lookup name with
      | none =>
          Speaker.program.mistake ("argument command: " ++ choice name (Action.names.map Prod.fst))
      | some action => do
          let (command, extras) ← Command.ofWords action words.tail
          return { request with command := some command, extras := request.extras ++ extras }
  | .extra word => .ok { request with extras := request.extras ++ [word] }
  | .refused opt complaint => Speaker.program.mistake (opt.label ++ complaint.message)

/-- Reads a whole command line, or says how the program ends because of it. -/
def ofWords (words : List String) : Except Output Request := do
  let sorted ← match programGrammar.sortAll words with
    | .ok sorted => pure sorted
    | .error ambiguity => Speaker.program.mistake ambiguity.message
  let request ← (programGrammar.items true sorted).foldlM take {}
  if request.extras.isEmpty then return request
  else Speaker.program.mistake ("unrecognized arguments: " ++ " ".intercalate request.extras)

end Request

end HindleyMilner.Cli
