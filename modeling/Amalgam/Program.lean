import Amalgam.CommandLine
import Amalgam.Join.Delivery

/-!
# The program

A run of the program as a function: from its arguments, its environment and the
file system to what it prints, its exit status and the file system after it.
-/

namespace Amalgam.Program

open CommandLine (Stop UsageError)

/-- The environment variable that lists further symbols. -/
def environmentVariable : String := "SOURCEJOIN_DEFINES"

/-- What `--version` prints. -/
def versionText : String := "sourcejoin 0.1.0\n"

/-- What `--help` prints, line by line. The layout is this program's own. -/
def helpLines : List String :=
  ["Merges a directory of C#-style sources into one file, evaluating #if/#elif/#else/#endif line" ++
      " directives.",
    "",
    "Usage: sourcejoin [OPTIONS] <INPUT>",
    "",
    "Arguments:",
    "  <INPUT>  The folder containing the source files to merge",
    "",
    "Options:",
    "  -o, --output <FILE>          Target file name (e.g. 'output.cs'). When omitted, the" ++
      " result is written to standard output",
    "  -d, --define <SYMBOLS>       Preprocessor symbols to define, comma-separated. May be" ++
      " repeated",
    "      --extension <EXTENSION>  Extension of the source files, without the dot [default: cs]",
    "      --exclude <DIR>          Folder names below the input folder to skip. Defaults to" ++
      " 'bin' and 'obj'",
    "      --strict                 Reject unterminated `#if` blocks and stray" ++
      " `#elif`/`#else`/`#endif`",
    "  -h, --help                   Print help",
    "  -V, --version                Print version"]

/-- What `--help` prints. -/
def helpText : String :=
  Text.unlines helpLines ++ "\n"

/-- The text that reports wrong arguments. The wording is this program's own:
only the kind of the error and the exit status are fixed. -/
def usageMessage : UsageError → String
  | .unknownArgument => "error: unexpected argument"
  | .invalidValue => "error: a value is required"
  | .tooManyValues => "error: unexpected value"
  | .argumentConflict => "error: an argument cannot be used multiple times"
  | .missingRequiredArgument => "error: the input folder was not provided"

/-- What a run of the program leaves behind. -/
structure Exit where
  status : UInt32
  stdout : String := ""
  /-- What the log shows of the run, and then the text of the failure. -/
  stderr : String := ""
  files : FileSystem

/-- The run that stops before there are settings. Only wrong arguments are a
failure. -/
def stop (fs : FileSystem) : Stop → Exit
  | .help => { status := 0, stdout := helpText, files := fs }
  | .version => { status := 0, stdout := versionText, files := fs }
  | .usage error => { status := 2, stderr := usageMessage error ++ "\n", files := fs }

/-- The events that are shown unless the user asks for others: the warnings. -/
def defaultLog : Log :=
  .upTo .warn

/-- The text that reports how a run ended: nothing if it succeeded. -/
def ending : Except Join.Failure Unit → String
  | .ok () => ""
  | .error failure => failure.message ++ "\n"

/-- The run with the given settings. Standard error gets what the log shows of
its events, and then the failure, if there is one. The log is chosen by whoever
runs the program; without one nothing is shown. -/
def runSettings (fs : FileSystem) (settings : Settings) (log : Log := .off) : Exit :=
  let outcome := Join.run fs settings
  { status := if outcome.result.isOk then 0 else 1
    stdout := outcome.stdout
    stderr := log.text outcome.events.toList ++ ending outcome.result
    files := outcome.files }

/-- The run with the given arguments and environment. -/
def run (fs : FileSystem) (arguments : List String) (environment? : Option String)
    (log : Log := .off) : Exit :=
  match CommandLine.settings arguments environment? with
  | .error reason => stop fs reason
  | .ok settings => runSettings fs settings log

end Amalgam.Program
