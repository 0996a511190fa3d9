import HindleyMilner.Cli.Arguments
import HindleyMilner.Cli.Files
import HindleyMilner.DepthLimit
import HindleyMilner.Expr.Decoding
import HindleyMilner.Expr.Listing
import HindleyMilner.Infer.Run
import HindleyMilner.Text.Lines
import HindleyMilner.Text.Utf8

/-!
The program as a function from its surroundings to its output.
-/

namespace HindleyMilner.Cli

/-- What surrounds a run. `stamp` is the time written in front of a log line. The standard input is
UTF-8, as a file is, and a byte that is not makes it malformed: surroundings that let such bytes
pass as low halves of pairs, as the C and POSIX locales do, are not meant. -/
structure Surroundings where
  words : List String
  stdin : Bytes := []
  fetch : String → Except FileError Bytes := fun _ => .error .missing
  terminal : Bool := false
  noColor : Option String := none
  stamp : String := ""
  limit : DepthLimit := {}

/-- Failures that the program does not turn into a message. -/
inductive Escape where
  | load (e : LoadError)
  | write (e : Text.LongNumeral)
  | limit (e : DepthLimit.Overflow)
  | nulInPath
  | noLevel
  | noLimit

def Escape.message : Escape → Text
  | load e => e.message
  | write e => e.message
  | limit e => e.message
  | nulInPath => "embedded null byte"
  | noLevel => "'list' object has no attribute 'upper'"
  | noLimit => "'>' not supported between instances of 'list' and 'int'"

structure Palette where
  red : String := ""
  green : String := ""
  cyan : String := ""
  bold : String := ""
  reset : String := ""

def Palette.colors : Palette where
  red := "\x1b[91m"
  green := "\x1b[92m"
  cyan := "\x1b[96m"
  bold := "\x1b[1m"
  reset := "\x1b[0m"

/-- Colors are for a terminal, unless the environment asks for none. -/
def Surroundings.palette (s : Surroundings) : Palette :=
  if s.terminal && s.noColor.getD "" = "" then .colors else {}

def errorLine (p : Palette) (message : Text) : Text :=
  p.red ++ p.bold ++ "error:" ++ p.reset ++ " " ++ message ++ "\n"

/-- Why a command reports an error: its input cannot be read, or its program has no type. -/
inductive Trouble where
  | unreadable (input : String) (e : FileError)
  | malformed (e : LoadError)
  | untypable (f : Fault)

def Trouble.message : Trouble → Text
  | unreadable input e => "cannot read " ++ input ++ ": " ++ e.message
  | malformed e => e.message
  | untypable f => f.message

def logLine (s : Surroundings) (source : String) (text : Text) : Text :=
  s.stamp ++ " [DEBUG] " ++ source ++ ": " ++ text ++ "\n"

def logLines (s : Surroundings) (level : Level) (events : List Event) : Text :=
  if level = .debug then events.flatMap fun e => logLine s e.source e.text else ""

/-- Loading ends in a program, in an error that is reported, or in one that is not. -/
inductive Loaded where
  | program (e : Program)
  | failed (c : Trouble)
  | escaped (e : Escape)

def load (s : Surroundings) (depth : Nat) (input : String) : Loaded :=
  let file := if input = "-" then "<stdin>" else input
  if input.toList.contains '\x00' then .escaped .nulInPath
  else match if input = "-" then .ok s.stdin else s.fetch input with
    | .error e => .failed (.unreadable input e)
    | .ok bytes =>
        match Text.Utf8.decode bytes with
        | .error e =>
            .failed (.malformed (.malformed (.invalidBytes file e.reason.message e.offset) none))
        | .ok cs =>
            let text := Text.ofChars (Text.unifyLineEnds cs)
            match Program.ofText { depth } (some file) text with
            | .ok e => .program e
            | .error (.malformed cause place) => .failed (.malformed (.malformed cause place))
            | .error e => .escaped (.load e)

def jsonReport (command : Command) (result : Inference) : Except Text.LongNumeral Text := do
  let type : List (Text × Json) := [("type", .str result.type.text)]
  let constraints : List (Text × Json) := if command.constraints then
      [("constraints", .arr (result.constraints.map fun c => .str c.text))]
    else []
  let annotated : List (Text × Json) := match result.tree with
    | some tree => [("annotated", tree.toJson)]
    | none => []
  let text ← (Json.obj (type ++ constraints ++ annotated)).render (.lines 2)
  return text ++ "\n"

def textReport (p : Palette) (command : Command) (result : Inference) :
    Except Text.LongNumeral Text := do
  let constraints := if command.constraints then
      p.cyan ++ "Constraints:" ++ p.reset ++ "\n" ++
        String.join (result.constraints.map fun c => "  " ++ c.text ++ "\n") ++ "\n"
    else ""
  let annotated : Text ← match result.tree with
    | some tree => do
        let listing ← tree.listing {}
        pure (listing ++ "\n\n")
    | none => pure ""
  return constraints ++ annotated ++ p.green ++ p.bold ++ result.type.text ++ p.reset ++ "\n"

/-- The `infer` command. A failure is also noted in the log, unless the input cannot be read. -/
def runInfer (s : Surroundings) (level : Level) (command : Command) (loaded : Loaded) :
    Except Escape Output :=
  let p := s.palette
  let failed : Text := if level = .debug then logLine s "mlinfer" "inference failed" else ""
  match loaded with
  | .escaped e => .error e
  | .failed (.unreadable input e) =>
      .ok { exit := 1, stderr := errorLine p (Trouble.unreadable input e).message }
  | .failed c => .ok { exit := 1, stderr := failed ++ errorLine p c.message }
  | .program e =>
      match e.run command.annotated with
      | .error fault trace =>
          .ok {
            exit := 1
            stderr := logLines s level trace.events.toList ++ failed ++
              errorLine p (Trouble.untypable fault).message }
      | .ok result trace => do
          let report := if command.json then jsonReport command result
            else textReport p command result
          let stdout ← report.mapError .write
          return { exit := 0, stdout, stderr := logLines s level trace.events.toList }

/-- The `show` command. -/
def runShow (s : Surroundings) (loaded : Loaded) : Except Escape Output :=
  match loaded with
  | .escaped e => .error e
  | .failed c => .ok { exit := 1, stderr := errorLine s.palette c.message }
  | .program e => do
      let source ← e.source.mapError .write
      return { exit := 0, stdout := source ++ "\n" }

/-- The limit is raised before anything is read, and never lowered. -/
def runCommand (s : Surroundings) (level : Level) (command : Command) : Except Escape Output :=
  match command.recursionLimit with
  | none => .error .noLimit
  | some least =>
      match s.limit.enter least with
      | (_, some overflow) => .error (.limit overflow)
      | (limit, none) =>
          let loaded := load s limit.current.toNat (command.input.getD "")
          match command.action with
          | .infer => runInfer s level command loaded
          | .display => runShow s loaded

/-- The level is looked at before the command, even if there is none. -/
def run (s : Surroundings) : Except Escape Output :=
  match Request.ofWords s.words with
  | .error output => .ok output
  | .ok request =>
      match request.level, request.command with
      | none, _ => .error .noLevel
      | some _, none => .ok { exit := 0, stdout := Speaker.program.help }
      | some level, some command => runCommand s level command

end HindleyMilner.Cli
