import LedgerHistory.Store.Table

/-!
# Aggregate rows

An aggregate row lists the ids of an entity's live entry rows at a state version, the one changed last
in front. Rows are written column by column, by the columns' names, and read back by position of the
first column with a name.
-/

namespace LedgerHistory

/-- Ids of entry rows, the one changed last in front. -/
structure RecencyList where
  ids : List Int64 := []
  deriving DecidableEq, Repr

namespace RecencyList

def contains (l : RecencyList) (id : Int64) : Bool := l.ids.contains id

/-- Takes an id out, from the first place where it stands. -/
def remove (l : RecencyList) (id : Int64) : RecencyList := ⟨l.ids.erase id⟩

/-- Puts an id in front. -/
def putFront (l : RecencyList) (id : Int64) : RecencyList := ⟨id :: l.ids⟩

def size (l : RecencyList) : Nat := l.ids.length

end RecencyList

/-- The live entries of an entity at a state version. -/
structure Aggregate where
  id : Int64
  stateVersion : Int64
  entity : EntityId
  list : RecencyList
  /-- The row of the singleton, in domains that have one. -/
  singleton : Option Int64
  deriving DecidableEq, Repr

/-- The names of an aggregate table's own columns. -/
structure AggregateSchema where
  table : Table
  entityColumn : String
  listColumn : String
  singletonColumn : Option String := none

namespace AggregateSchema

/-- The columns that an aggregate is looked up by: the entity alone. -/
def keyColumns (t : AggregateSchema) : List String := [t.entityColumn]

/-- The field of a column. Of the parts that a name could stand for, the first in the order id,
version, entity, list, singleton is taken. -/
def field (t : AggregateSchema) (a : Aggregate) (name : String) : Except StoreError ColumnValue :=
  if name = idColumn then .ok (.int8 a.id)
  else if name = stateVersionColumn then .ok (.int8 a.stateVersion)
  else if name = t.entityColumn then .ok (.ofEntityId a.entity)
  else if name = t.listColumn then .ok (.int8Array a.list.ids)
  else if t.singletonColumn = some name then .ok (.ofOption .int8 a.singleton)
  else .error (.unknownColumn t.table.name name)

def encode (t : AggregateSchema) (a : Aggregate) : Except StoreError Row :=
  t.table.columns.mapM fun c => t.field a c.name

/-- The field of a row under a name. -/
def fieldAt (t : AggregateSchema) (row : Row) (name : String) : Except StoreError ColumnValue :=
  (t.table.positionOf name).map (Row.at row)

def decode (t : AggregateSchema) (row : Row) : Except StoreError Aggregate := do
  let singleton ← match t.singletonColumn with
    | some c => (← t.fieldAt row c).readInt64?
    | none => .ok none
  let id ← (← t.fieldAt row idColumn).readInt64
  let version ← (← t.fieldAt row stateVersionColumn).readInt64
  let entity ← (← t.fieldAt row t.entityColumn).readEntityId
  let ids ← (← t.fieldAt row t.listColumn).readInt64Array
  return ⟨id, version, entity, ⟨ids⟩, singleton⟩

end AggregateSchema

end LedgerHistory
