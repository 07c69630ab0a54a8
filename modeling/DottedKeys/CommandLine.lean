import DottedKeys.CommandLine.Arguments
import DottedKeys.Generate

/-!
# The command line

A run of the program: it reads its arguments, makes settings of them, and generates. It ends with a
status and two texts, one for the output and one for messages. Arguments and settings that are
refused leave the disk alone. `run` is `main`, and `runConfig` what `main` does once it has
settings.
-/

namespace DottedKeys.CommandLine

/-- The name of the program. -/
def programName : Text := "propkeys"

/-- The version of the program. -/
def version : Text := "0.1.0"

/-- How the program is called. -/
def usage : Text :=
  "usage: propkeys [-h] [-v] [-out PATH] [-properties PATH] [-classname FQCN]\n" ++
    ("                [-tmp DIR] [-language \x7bjava,python\x7d] [-encoding CODEC]\n" : Text) ++
    "                [--log-level \x7bCRITICAL,ERROR,WARNING,INFO,DEBUG\x7d]\n"

/-- How the program is called, what it is for, and what its options mean. -/
def help : Text :=
  usage ++
    "\nGenerate nested key constants from a properties file and zip the source.\n\noptions:\n" ++
    "  -h, --help            show this help message and exit\n" ++
    "  -v, --version         show program's version number and exit\n" ++
    "  -out PATH             output zip file\n" ++
    "  -properties PATH      properties input path\n" ++
    "  -classname FQCN       destination class name, e.g. com.acme.Keys\n" ++
    "  -tmp DIR              temp output path\n" ++
    "  -language \x7bjava,python\x7d\n" ++
    "                        generated source language (default: python)\n" ++
    "  -encoding CODEC       properties file encoding (default: iso-8859-1)\n" ++
    "  --log-level \x7bCRITICAL,ERROR,WARNING,INFO,DEBUG\x7d\n" ++
    "                        logging level (default: INFO)\n"

/-- How a run ended: with a status, or with a failure that the program does not expect. -/
structure Finish where
  status : Except Failure Nat
  output : Text
  messages : Text
  disk : Disk

/-- The lines of a log that matter enough. -/
def logText (level : Level) (events : List Event) : Text :=
  (events.filter (level.rank ≤ ·.level.rank)).flatMap Event.line

section Runs

variable [Codecs]

/-- Generate with settings, and report a failure that is expected. -/
def runConfig (level : Level) (c : Config) (d : Disk) : Finish :=
  let outcome := (Generate.generate c).perform d
  match outcome.result with
  | .ok _ => ⟨.ok 0, [], logText level outcome.log, outcome.disk⟩
  | .error failure =>
    if failure.isExpected then
      ⟨.ok 1, [], logText level (outcome.log ++ [.failed failure]), outcome.disk⟩
    else ⟨.error failure, [], logText level outcome.log, outcome.disk⟩

/-- Run the program. -/
def run (arguments : List Text) (d : Disk) : Finish :=
  match read arguments with
  | .error (.flag .help) => ⟨.ok 0, help, [], d⟩
  | .error (.flag .version) => ⟨.ok 0, version ++ "\n", [], d⟩
  | .error (.refusal refusal) =>
    ⟨.ok 1, [], usage ++ programName ++ ": error: " ++ refusal.message ++ "\n", d⟩
  | .ok given =>
    match Config.ofOptions given.options with
    | .error (.usage fault) => ⟨.ok 1, [], fault.message ++ "\n" ++ usage, d⟩
    | .error (.encodingName flaw) => ⟨.error (.encodingName flaw), [], [], d⟩
    | .ok c => runConfig given.level c d

/-- The paths that a run looks at. -/
def pathsOf (arguments : List Text) : List Path :=
  match read arguments with
  | .error _ => []
  | .ok given =>
    match Config.ofOptions given.options with
    | .error _ => []
    | .ok c => Generate.pathsOf c

end Runs

end DottedKeys.CommandLine
