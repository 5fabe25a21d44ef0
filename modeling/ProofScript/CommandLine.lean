import ProofScript.Directory
import ProofScript.Source

/-!
# The command line

One argument names the script; further ones do not matter. Settings are read first if there are
any. What a run prints and how it ends is a function of its arguments and files.
-/

namespace ProofScript.CommandLine

def settingsFile : String := "prover.toml"

inductive Failure
  | noArgument
  | badSettings
  | unreadable (path : String) (cause : ReadError)
  | source (cause : SourceError)
  deriving DecidableEq, Repr

namespace Failure

def message : Failure → String
  | noArgument => "usage: fol-verifier <file>"
  | badSettings => "invalid configuration"
  | unreadable path cause => s!"could not read {path}: {cause.message}"
  | source cause => cause.message

def exitCode : Failure → Nat
  | noArgument | badSettings => 2
  | unreadable .. | source _ => 1

end Failure

/-- What reading the file at a path gives. -/
abbrev Files := String → Except ReadError ByteArray

def readText (files : Files) (path : String) : Except ReadError String := do
  match String.fromUTF8? (← files path) with
  | some text => return text
  | none => throw .notText

/-- Only a file that is not there gives the default settings. -/
def readSettings (files : Files) : Except Failure Settings :=
  match readText files settingsFile with
  | .error .missing => .ok {}
  | .error _ => .error .badSettings
  | .ok text =>
    match Settings.parse? text with
    | some settings => .ok settings
    | none => .error .badSettings

/-- The lines to print on success. -/
def Report.lines (settings : Settings) (r : Report) : List String :=
  (if settings.printChecks then r.dumps.map Dump.text else []) ++ r.entries.map Entry.text

def run (files : Files) (args : List String) : Except Failure (List String) := do
  match args with
  | [] => throw .noArgument
  | path :: _ =>
    let settings ← readSettings files
    let source ← (readText files path).mapError (.unreadable path)
    let report ← (verifySource source settings).mapError .source
    return Report.lines settings report

end ProofScript.CommandLine
