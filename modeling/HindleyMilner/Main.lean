import HindleyMilner.Cli.Run
import HindleyMilner.Text.Stream
import Std.Time.Format

/-!
The command-line program. It reads what the request names and leaves every decision to `Cli.run`.
-/

namespace HindleyMilner.Cli

/-- A directory can be opened and then not be read, so its error names no path. -/
def fileError : IO.Error → FileError
  | .noFileOrDirectory .. => .missing
  | .inappropriateType none .. => .directory
  | .inappropriateType (some _) .. => .notDirectory
  | .invalidArgument (some _) .. => .nameTooLong
  | e => .other (toString e)

/-- The input that a request names. -/
def wanted? (words : List String) : Option String :=
  match Request.ofWords words with
  | .ok request => request.command.bind Command.input
  | .error _ => none

def fetchFile (path : String) : IO (Except FileError Bytes) := do
  try
    let bytes ← IO.FS.readBinFile (plainPath path)
    return .ok bytes.toList
  catch e => return .error (fileError e)

def timeStamp : IO String := do
  let now ← Std.Time.PlainDateTime.now
  return now.format "uuuu-MM-dd HH:mm:ss,SSS"

end HindleyMilner.Cli

open HindleyMilner.Cli in
def main (words : List String) : IO UInt32 := do
  let out ← IO.getStdout
  let err ← IO.getStderr
  let mut stdin : Bytes := []
  let mut file : Except FileError Bytes := .error .missing
  match wanted? words with
  | none => pure ()
  | some "-" => stdin := (← (← IO.getStdin).readBinToEnd).toList
  | some path => file ← fetchFile path
  let found := file
  let surroundings : Surroundings := {
    words, stdin
    fetch := fun _ => found
    terminal := ← out.isTty
    noColor := ← IO.getEnv "NO_COLOR"
    stamp := ← timeStamp }
  match run surroundings with
  | .ok output =>
      err.putStr output.stderr.lenient
      match output.stdout.strict with
      | .ok text =>
          out.putStr text
          return output.exit.toUInt32
      | .error e =>
          err.putStrLn e.message
          return 1
  | .error e =>
      err.putStrLn e.message.lenient
      return 1
