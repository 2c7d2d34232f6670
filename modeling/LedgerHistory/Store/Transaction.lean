import LedgerHistory.Dictionary
import LedgerHistory.Store.Copy.Reader
import LedgerHistory.Store.Latest

/-!
# The store in memory

A transaction works on a copy of the committed state, which takes its place at the commit. Sequences
alone are shared at once, so that they move forward even when the transaction is given up.
-/

namespace LedgerHistory

/-- The rows of a table in order of insertion, and the ids in use. -/
structure TableContents where
  rows : List Row := []
  ids : List Int64 := []

/-- A state of the store. -/
structure Snapshot where
  tables : Dictionary String TableContents := .empty
  /-- The last value issued by each sequence. -/
  sequences : Dictionary String Int64 := .empty
  entities : Dictionary Address Entity := .empty

/-- The sequence that numbers the entities. -/
def entitySequence : String := "entities_id_seq"

/-- The store: its committed state, and whether the next bulk load is to fail. -/
structure Store where
  committed : Snapshot := {}
  failNextCopy : Bool := false

/-- A transaction: the copy it works on. -/
structure Transaction where
  working : Snapshot

namespace Snapshot

def table (s : Snapshot) (name : String) : TableContents := s.tables.getD name {}

def rows (s : Snapshot) (name : String) : List Row := (s.table name).rows

/-- Raises a sequence to a value that it has not passed yet. -/
def raise (s : Snapshot) (name : String) (value : Int64) : Snapshot :=
  { s with sequences := s.sequences.insert name (max (s.sequences.getD name 0) value) }

def nextValue (s : Snapshot) (name : String) : Int64 := s.sequences.getD name 0 + 1

/-- The ids of a batch, checked one by one against those in use and those before them. -/
def checkIds (t : Table) (idIndex : Nat) (used batch : List Int64) :
    List Row → Except StoreError (List Int64)
  | [] => .ok []
  | row :: rows => do
    let id ← (Row.at row idIndex).readInt64
    if used.contains id || batch.contains id then .error (.duplicateKey t.name id)
    else do
      let ids ← checkIds t idIndex used (id :: batch) rows
      return id :: ids

/-- Appends a batch of rows, all or none. The table exists from the first batch on that is offered. -/
def appendRows (s : Snapshot) (t : Table) (rows : List Row) : Snapshot × Except StoreError Nat :=
  match t.positionOf idColumn with
  | .error e => (s, .error e)
  | .ok idIndex =>
    let stored := s.table t.name
    match checkIds t idIndex stored.ids [] rows with
    | .error e => ({ s with tables := s.tables.insert t.name stored }, .error e)
    | .ok ids =>
      let stored := { rows := stored.rows ++ rows, ids := stored.ids ++ ids }
      ({ s with tables := s.tables.insert t.name stored }, .ok rows.length)

/-- Answers a query. Of a table that does not exist only the query is checked. -/
def latest (s : Snapshot) (q : LatestQuery) : Except StoreError (List Row) :=
  match s.tables.get? q.table.name with
  | some stored => q.evaluate stored.rows
  | none => q.validate.map fun _ => []

end Snapshot

namespace Store

/-- The committed rows of a table. -/
def rows (s : Store) (table : String) : List Row := s.committed.rows table

/-- The last value issued by a sequence, if it was ever used. -/
def sequenceValue? (s : Store) (name : String) : Option Int64 := s.committed.sequences.get? name

def entityCount (s : Store) : Nat := s.committed.entities.size

/-- Registers an entity that has its number already. -/
def register (s : Store) (e : Entity) : Store :=
  let committed := s.committed.raise entitySequence e.id.number
  { s with committed := { committed with entities := committed.entities.insert e.address e } }

/-- Puts committed rows into a table. -/
def seed (s : Store) (t : Table) (rows : List Row) : Store × Except StoreError Nat :=
  let (committed, r) := s.committed.appendRows t rows
  ({ s with committed }, r)

/-- Lets the next bulk load of any transaction fail. -/
def failCopy (s : Store) : Store := { s with failNextCopy := true }

/-- Opens a transaction on a copy of the committed state. -/
def begin (s : Store) : Transaction := ⟨s.committed⟩

end Store

/-- A transaction with the store it belongs to. -/
structure Connection where
  store : Store
  transaction : Transaction

namespace Connection

/-- Changes the transaction's copy. -/
def withWorking (c : Connection) (f : Snapshot → Snapshot) : Connection :=
  { c with transaction := ⟨f c.transaction.working⟩ }

/-- Advances a shared sequence and takes its value over into the copy. -/
def advance (c : Connection) (name : String) : Int64 × Connection :=
  let value := c.store.committed.nextValue name
  let set (s : Snapshot) : Snapshot := { s with sequences := s.sequences.insert name value }
  (value, { c.withWorking set with store := { c.store with committed := set c.store.committed } })

/-- Advances the sequence of each table once. -/
def advanceSequences (c : Connection) : List Table → List Int64 × Connection
  | [] => ([], c)
  | t :: ts =>
    let (value, c) := c.advance t.sequenceName
    let (values, c) := c.advanceSequences ts
    (value :: values, c)

/-- Records the last id issued for each table. A value that the sequence has passed is of no account. -/
def raiseSequences (c : Connection) (values : List (Table × Int64)) : Connection :=
  c.withWorking fun s => values.foldl (fun s (t, value) => s.raise t.sequenceName value) s

/-- Answers a query out of the copy. -/
def latest (c : Connection) (q : LatestQuery) : Except StoreError (List Row) :=
  c.transaction.working.latest q

/-- The error of a bulk load that was to fail. -/
def copyFailure (table : String) : StoreError :=
  .transport ("connection reset during copy into " ++ table)

/-- Loads a stream into a table. -/
def bulkLoad (c : Connection) (t : Table) (stream : List UInt8) :
    Except StoreError Nat × Connection :=
  if c.store.failNextCopy then
    (.error (copyFailure t.name), { c with store := { c.store with failNextCopy := false } })
  else
    match t.decodeStream stream with
    | .error e => (.error e, c)
    | .ok rows =>
      let (working, r) := c.transaction.working.appendRows t rows
      (r, c.withWorking fun _ => working)

/-- The entity with an address. One that is not known yet is registered under a new number, with the
state version given. -/
def resolve (c : Connection) (address : Address) (stateVersion : Int64) : Entity × Connection :=
  match c.transaction.working.entities.get? address with
  | some e => (e, c)
  | none =>
    let (id, c) := c.advance entitySequence
    let e : Entity :=
      if address.isGlobal then .global address ⟨id⟩ stateVersion
      else .internal address ⟨id⟩ none stateVersion
    (e, c.withWorking fun s => { s with entities := s.entities.insert address e })

/-- The store after the transaction's copy took the place of the committed state. Sequences keep the
greater of both values. -/
def commit (c : Connection) : Store :=
  let merged := c.store.committed.sequences.entries.foldl
    (fun s (name, value) => s.raise name value) c.transaction.working
  { c.store with committed := merged }

end Connection

end LedgerHistory
