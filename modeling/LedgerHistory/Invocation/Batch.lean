import LedgerHistory.Dictionary
import LedgerHistory.Invocation.Script

/-!
# Writing batches

Rows go into the store a batch at a time, each as one bulk-load stream.
-/

namespace LedgerHistory

/-- Rows for one table, each of them made or impossible to make. -/
structure Batch where
  table : Table
  rows : List (Except StoreError Row)

/-- A batch of rows that are all made. -/
def Batch.ofRows (table : Table) (rows : List Row) : Batch := ⟨table, rows.map .ok⟩

/-- The bulk-load stream of a batch, up to the first row that cannot be made or is refused. -/
def Batch.stream (b : Batch) : Except StoreError (List UInt8) := do
  let w ← b.rows.foldlM (fun w r => do BulkStream.write w (← r)) (BulkStream.new b.table)
  return w.bytes

/-- The number of rows written to each table. -/
structure WriteTally where
  written : Dictionary String Nat := .empty

namespace WriteTally

/-- Loads a batch into its table and says how many rows that were. An empty one makes no call. -/
def write (tally : WriteTally) (b : Batch) : Action (Nat × WriteTally) :=
  if b.rows.isEmpty then return (0, tally)
  else do
    Action.failIfCancelled .write
    let stream ← Action.ofExcept (b.stream.mapError (.store .write))
    let count ← Action.request .write (.bulkLoad b.table stream)
    return (count, ⟨tally.written.insert b.table.name (tally.written.getD b.table.name 0 + count)⟩)

/-- Loads batches in order, up to the first that fails. The tally knows of those before it. -/
def writeAll (tally : WriteTally) : List Batch → Script (Except InvocationError Unit × WriteTally)
  | [] => return (.ok (), tally)
  | b :: rest => do
    match ← (tally.write b).run with
    | .error e => return (.error e, tally)
    | .ok (_, tally) => writeAll tally rest

/-- The number of rows written. -/
def total (tally : WriteTally) : Nat := tally.written.values.foldr (· + ·) 0

/-- The number of rows written to each table, in the order of the tables' names. -/
def report (tally : WriteTally) : List (String × Nat) :=
  tally.written.entries.mergeSort fun x y => x.1 ≤ y.1

end WriteTally

end LedgerHistory
