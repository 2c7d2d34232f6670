import LedgerHistory.CommandLine.Run

/-!
# The program

Reads the files that a command line names, carries it out and writes what it leaves behind.
-/

namespace LedgerHistory.CommandLine

/-- What the program says of itself. -/
def helpText : String := unlines [
  "Records ledger extensions in history tables",
  "",
  "Usage: ledger-history [OPTIONS] <COMMAND>",
  "",
  "Commands:",
  "  project --input <FILE> [--config <FILE>]  Record the extensions of a file in an empty store",
  "  schema                                    Print the statements of every table",
  "  config [--config <FILE>]                  Print the configuration in force",
  "  help [COMMAND]                            Print this text",
  "",
  "Options:",
  "  -v, --verbose",
  "      --format <FORMAT>  text or json",
  "  -h, --help",
  "  -V, --version"]

/-- The name and version of the program. -/
def versionText : String := unlines ["ledger-history 0.1.0"]

def failureText : List Cause → String
  | [] => ""
  | outer :: inner => unlines (s!"Error: {outer.message}" :: inner.map fun c => s!"  caused by: {c.message}")

/-- The exit status of a carried out command. -/
def exitStatus (outcome : Outcome) : UInt32 := if outcome.failure.isEmpty then 0 else 1

/-- The text of a file, or why there is none. -/
def readPath (path : String) : IO (String × Except String String) := do
  try return (path, .ok (← IO.FS.readFile path))
  catch e => return (path, .error (toString e))

/-- Reads the files, carries the command line out and writes what it leaves behind. -/
def perform (c : CommandLine) : IO UInt32 := do
  let files ← c.paths.mapM readPath
  let outcome := c.run fun path => (files.lookup path).getD (.error "not read")
  (← IO.getStdout).putStr outcome.stdout
  (← IO.getStderr).putStr (failureText outcome.failure)
  return exitStatus outcome

/-- Carries out a command line, or says how to write one. -/
def answer (words : List String) : IO UInt32 := do
  match parse words with
  | .ok c => perform c
  | .error .help => (← IO.getStdout).putStr helpText; return 0
  | .error .version => (← IO.getStdout).putStr versionText; return 0
  | .error .misuse => (← IO.getStderr).putStr helpText; return 2

end LedgerHistory.CommandLine

def main (words : List String) : IO UInt32 := LedgerHistory.CommandLine.answer words
