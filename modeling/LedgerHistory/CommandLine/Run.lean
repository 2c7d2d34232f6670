import LedgerHistory.CommandLine.Arguments
import LedgerHistory.CommandLine.Report
import LedgerHistory.Configuration.Text
import LedgerHistory.Invocation.Session
import LedgerHistory.Ledger.Input

/-!
# Running commands

A command as a function of the files that it reads. It writes lines to the standard output and fails
with a chain of causes, the outermost first.
-/

namespace LedgerHistory

/-- Why a command fails, or what it was doing. -/
inductive Cause
  | doing (what : String)
  | invocation (e : InvocationError)
  | decode (e : DecodeError)
  /-- The wording of a deeper cause. -/
  | because (reason : String)
  deriving DecidableEq

namespace Cause

def message : Cause → String
  | .doing what => what
  | .invocation e => e.message
  | .decode e => e.message?.getD "malformed JSON"
  | .because reason => reason

/-- An invocation error with the causes inside it. -/
def ofInvocation (e : InvocationError) : List Cause :=
  .invocation e :: match e with
    | .store _ (.io reason) => [.because (StoreError.io reason).message, .because reason]
    | .store _ cause => [.because cause.message]
    | _ => []

end Cause

/-- What a command leaves behind: its output, and why it failed, if it did. -/
structure Outcome where
  stdout : String
  failure : List Cause := []

namespace CommandLine

/-- The files of a run: the text of a path, or why it cannot be read. -/
abbrev Files := String → Except String String

def unlines (lines : List String) : String := String.join (lines.map (· ++ "\n"))

/-- The configuration of a path, or else the default. -/
def readConfiguration (files : Files) : Option String → Except (List Cause) Configuration
  | none => .ok {}
  | some path =>
    let text := (files path).mapError fun reason => InvocationError.config (.unreadable path reason)
    (text.bind Configuration.ofText).mapError fun e =>
      .doing s!"loading {path}" :: Cause.ofInvocation e

def readInput (files : Files) (path : String) : Except (List Cause) (List LedgerExtension) := do
  let text ← (files path).mapError fun reason => [.doing s!"reading {path}", .because reason]
  (LedgerInput.parse text).mapError fun e => [.doing "parsing ledger input", .decode e]

/-- Records extensions in order, up to the first that fails. Gives the reports of those before it, and
the error. -/
def replay (config : Configuration) (store : Store) :
    List LedgerExtension → List InvocationReport × Option InvocationError
  | [] => ([], none)
  | x :: rest =>
    let (result, session) := ({ store } : Session).run (recordExtension config x)
    match result with
    | .error e => ([], some e)
    | .ok report =>
      let (reports, error) := replay config session.store rest
      (report :: reports, error)

def reportLines (reports : List InvocationReport) : List String :=
  (reports.zipIdx.map fun (report, index) => report.lines index).flatten

/-- The last line, behind those of the reports. -/
def totalLine (reports : List InvocationReport) : String :=
  let rows := (reports.map (·.totalRows)).foldr (· + ·) 0
  s!"✓ {reports.length} extensions, {rows} rows"

/-- Records extensions and shows the reports. As text they are shown even if a later extension fails. -/
def project (format : ReportFormat) (config : Configuration) (extensions : List LedgerExtension) :
    Outcome :=
  match replay config {} extensions, format with
  | (reports, some e), format =>
    ⟨match format with
      | .text => unlines (reportLines reports)
      | .json => "", .doing s!"extension #{reports.length}" :: Cause.ofInvocation e⟩
  | (reports, none), .text => ⟨unlines (reportLines reports ++ [totalLine reports]), []⟩
  | (reports, none), .json => ⟨unlines [(Json.array (reports.map (·.encode))).indented], []⟩

/-- The statements that make every table and load rows into it. -/
def schemaText : String :=
  unlines (outputTables.flatMap fun t => [t.definition, "-- " ++ t.bulkLoadStatement, ""])

/-- Carries a command line out. -/
def run (files : Files) (c : CommandLine) : Outcome :=
  let outcome : Except (List Cause) Outcome := match c.command with
    | .schema => .ok ⟨schemaText, []⟩
    | .config path => do
      let config ← readConfiguration files path
      let text ← config.text.mapError Cause.ofInvocation
      return ⟨text, []⟩
    | .project input path => do
      let config ← readConfiguration files path
      return project c.format config (← readInput files input)
  match outcome with
  | .ok outcome => outcome
  | .error failure => ⟨"", failure⟩

/-- The paths that a command may read. -/
def paths (c : CommandLine) : List String :=
  match c.command with
  | .schema => []
  | .config path => path.toList
  | .project input path => input :: path.toList

end CommandLine

end LedgerHistory
