import LedgerHistory.Recording
import LedgerHistory.Json.Printer

/-!
# Reports

What a recorded extension did, as lines of text or as JSON. Runs are neither timed nor numbered: where
a duration or the name of a run would stand there is the same mark each time, so that equal inputs give
equal output.
-/

namespace LedgerHistory.InvocationReport

/-- What stands where runs differ. -/
def mark : String := "#"

/-- The width of the column of names. -/
def nameWidth : Nat := 52

/-- A name filled up with blanks to the width of its column. -/
def padded (name : String) : String :=
  name ++ String.ofList (List.replicate (nameWidth - name.length) ' ')

/-- The range of state versions. -/
def versions (r : InvocationReport) : String :=
  match r.stateVersions with
  | some (first, last) => s!"{first}..={last}"
  | none => "-"

def lines (r : InvocationReport) (index : Nat) : List String :=
  s!"✓ extension #{index} (state versions {r.versions}): {r.events} events, {r.entitiesResolved} entities, {r.idsIssued} ids"
    :: (r.rowsWritten.map fun e => s!"  {padded e.1} {e.2}")
    ++ r.stages.map fun stage => s!"  {padded stage.name} {mark} ms"

def encode (r : InvocationReport) : Json :=
  .object [("invocation_id", .string mark),
    ("state_versions", .ofOption (fun v : Int64 × Int64 =>
      .array [.ofInt v.1.toInt, .ofInt v.2.toInt]) r.stateVersions),
    ("events", .ofNat r.events), ("entities_resolved", .ofNat r.entitiesResolved),
    ("ids_allocated", .ofInt r.idsIssued.toInt),
    ("rows_written", .object (r.rowsWritten.map fun e => (e.1, .ofNat e.2))),
    ("stages", .array (r.stages.map fun stage =>
      .object [("name", .string stage.name), ("elapsed_ms", .ofNat 0)]))]

end LedgerHistory.InvocationReport
