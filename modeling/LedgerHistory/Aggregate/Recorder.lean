import LedgerHistory.Aggregate.Pass
import LedgerHistory.Invocation.Lookup
import LedgerHistory.Invocation.Batch

/-!
# Recorders

A recorder takes one domain through an invocation: it visits the events, loads the prior rows that
they touch, makes the new rows and writes them.
-/

namespace LedgerHistory

/-- A domain with lists on its way through an invocation. -/
structure ListRecorder (d : ListDomain) where
  changes : GroupedChanges d := {}
  prior : LatestRows d := {}
  /-- The rows of the last pass that succeeded. -/
  output : NewRows d := {}
  maxStateVersion : Option Int64 := none
  /-- Longer lists are warned of. -/
  warnLength : Nat

/-- The greater of a version and the greatest so far. -/
def raiseVersion (greatest : Option Int64) (version : Int64) : Option Int64 :=
  some ((greatest.map (max version)).getD version)

namespace ListRecorder

variable {d : ListDomain}

def addEvent (p : ListRecorder d) (version : Int64) (entity : Entity) (s : Substate)
    (known : KnownEntities) : Except InvocationError (ListRecorder d) := do
  match ← d.meaningOf s known with
  | none => .error (.unsupportedShape d.name entity.address version s.typeName)
  | some change => return { p with
      changes := p.changes.add ⟨entity.id, version⟩ change
      maxStateVersion := raiseVersion p.maxStateVersion version }

/-- How aggregates are looked up. -/
def aggregateLookup (d : ListDomain) : LatestLookup EntityId Aggregate where
  table := d.aggregateSchema.table
  keyColumns := d.aggregateSchema.keyColumns
  keyValues entity := [.ofEntityId entity]
  decode row := (d.aggregateSchema.decode row).map fun a => (a.entity, a)

/-- How entries are looked up. -/
def entryLookup (d : ListDomain) : LatestLookup d.EntryKey d.Entry where
  table := d.entryTable
  keyColumns := d.keyColumns
  keyValues key := .ofEntityId key.1 :: d.keyValues key.2
  decode row := (d.decodeEntry row).map fun e => (d.entryKey e, e)

/-- Loads the most recent rows of the entities and keys that change, up to the greatest state version
visited. -/
def loadLatest (p : ListRecorder d) : Action (ListRecorder d) := do
  let aggregates ← (aggregateLookup d).load p.changes.entities p.maxStateVersion
  let entries ← (entryLookup d).load p.changes.entryKeys p.maxStateVersion
  let prior := aggregates.values.foldl LatestRows.putAggregate p.prior
  return { p with prior := entries.values.foldl LatestRows.putEntry prior }

/-- The warnings of lists longer than wanted. -/
def warningsOf (p : ListRecorder d) (rows : NewRows d) : List Warning :=
  (rows.aggregates.filter fun a => p.warnLength < a.list.size).map fun a =>
    .longAggregate d.name a.entity a.stateVersion a.list.size

end ListRecorder

/-- What making rows leaves behind: the recorder and the counters, even after a failure. -/
structure RowsMade (π : Type) where
  result : Except InvocationError Unit
  recorder : π
  allocator : Allocator
  warnings : List Warning := []

namespace ListRecorder

variable {d : ListDomain}

/-- Makes the rows. After a failure those of the last success stay. -/
def makeRows (p : ListRecorder d) (allocator : Allocator) : RowsMade (ListRecorder d) :=
  let made := Pass.run p.changes p.prior allocator
  match made.result with
  | .error e => ⟨.error e, { p with prior := made.prior }, made.allocator, []⟩
  | .ok rows => ⟨.ok (), { p with prior := made.prior, output := rows }, made.allocator,
      p.warningsOf rows⟩

/-- The batches to be written: the entries, then the aggregates, then the singletons. -/
def batches (p : ListRecorder d) : List Batch :=
  [.ofRows d.entryTable (p.output.entries.map d.encodeEntry),
    ⟨d.aggregateSchema.table, p.output.aggregates.map d.aggregateSchema.encode⟩]
  ++ (d.singletonTable.map fun t => Batch.ofRows t.table (p.output.singletons.map t.encode)).toList

end ListRecorder

/-- A domain without lists on its way through an invocation. -/
structure PlainRecorder (h : PlainDomain) where
  /-- The state version, entity and change of each event. -/
  pending : List (Int64 × EntityId × h.Change) := []
  /-- The rows of the last success. -/
  rows : List Row := []

namespace PlainRecorder

variable {h : PlainDomain}

def addEvent (p : PlainRecorder h) (version : Int64) (entity : Entity) (s : Substate) :
    Except InvocationError (PlainRecorder h) :=
  match h.meaningOf s with
  | none => .error (.unsupportedShape h.name entity.address version s.typeName)
  | some change => .ok { p with pending := p.pending ++ [(version, entity.id, change)] }

/-- Makes a row of each change. -/
def rowsOf (allocator : Allocator) :
    List (Int64 × EntityId × h.Change) → Except InvocationError (List Row) × Allocator
  | [] => (.ok [], allocator)
  | (version, entity, change) :: rest =>
    match allocator.next h.table with
    | .error e => (.error e, allocator)
    | .ok (id, allocator) =>
      let (rows, allocator) := rowsOf allocator rest
      (rows.map (h.encode ⟨id, version, entity, change⟩ :: ·), allocator)

/-- Makes the rows. After a failure those of the last success stay. -/
def makeRows (p : PlainRecorder h) (allocator : Allocator) : RowsMade (PlainRecorder h) :=
  match rowsOf (h := h) allocator p.pending with
  | (.error e, allocator) => ⟨.error e, p, allocator, []⟩
  | (.ok rows, allocator) => ⟨.ok (), { p with rows }, allocator, []⟩

def batches (p : PlainRecorder h) : List Batch := [.ofRows h.table p.rows]

end PlainRecorder

end LedgerHistory
