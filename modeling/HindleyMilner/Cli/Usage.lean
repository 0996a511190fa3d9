/-!
Help texts. The usage lines that stand above an error message are the first part of the help.
-/

namespace HindleyMilner.Cli

/-- The parsers that can speak: the program itself and its two commands. -/
inductive Speaker where
  | program
  | infer
  | display
deriving DecidableEq, Repr

namespace Speaker

def name : Speaker → String
  | program => "mlinfer"
  | infer => "mlinfer infer"
  | display => "mlinfer show"

def usageLines : Speaker → List String
  | program => [
      "usage: mlinfer [-h] [-V] [--log-level \x7bdebug,info,warning,error\x7d]",
      "               \x7binfer,i,show\x7d ..."]
  | infer => [
      "usage: mlinfer infer [-h] [--annotated] [--constraints] [--json]",
      "                     [--recursion-limit RECURSION_LIMIT]",
      "                     input"]
  | display => [
      "usage: mlinfer show [-h] [--recursion-limit RECURSION_LIMIT] input"]

private def inputLines : List String := [
  "positional arguments:",
  "  input                 Input JSON expression tree ('-' for stdin)"]

private def limitLines : List String := [
  "  --recursion-limit RECURSION_LIMIT",
  "                        Minimum interpreter recursion limit while loading and",
  "                        inferring (default: 10000)"]

private def helpLine : String :=
  "  -h, --help            show this help message and exit"

def detailLines : Speaker → List String
  | program => [
      "mlinfer - Hindley-Milner type inference for expression trees",
      "",
      "positional arguments:",
      "  \x7binfer,i,show\x7d        Available commands",
      "    infer (i)           Infer the type of an expression",
      "    show                Print a JSON expression tree as source text",
      "",
      "options:",
      helpLine,
      "  -V, --version         show program's version number and exit",
      "  --log-level \x7bdebug,info,warning,error\x7d",
      "                        Logging verbosity (debug shows constraints and",
      "                        substitutions)"]
  | infer => inputLines ++ [
      "",
      "options:",
      helpLine,
      "  --annotated           Show the resolved type of every node",
      "  --constraints         Also list the generated constraints",
      "  --json                Output results as JSON"] ++ limitLines
  | display => inputLines ++ ["", "options:", helpLine] ++ limitLines

/-- Lines, each with its end. -/
def unlines (lines : List String) : String :=
  String.join (lines.map (· ++ "\n"))

def usage (speaker : Speaker) : String :=
  unlines speaker.usageLines

def help (speaker : Speaker) : String :=
  unlines (speaker.usageLines ++ "" :: speaker.detailLines)

def complain (speaker : Speaker) (message : String) : String :=
  speaker.usage ++ speaker.name ++ ": error: " ++ message ++ "\n"

end Speaker

def versionLine : String :=
  "mlinfer 0.1.0\n"

end HindleyMilner.Cli
