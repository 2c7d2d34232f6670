import LedgerHistory.Aggregate.Domain

/-!
# Metadata

The metadata of an entity: one entry for each key, whose value is a byte string.
-/

namespace LedgerHistory.Metadata

def entryTable : Table :=
  ⟨"entity_metadata_entry_history", historyColumns "entity_id" ++
    [.required "key" .text, .optional "value" .bytea, .required "is_deleted" .bool,
      .required "is_locked" .bool]⟩

/-- A change of one key. Without a value the key was removed. -/
structure Change where
  key : String
  value : Option (List UInt8)
  isLocked : Bool
  deriving DecidableEq

def encode (r : HistoryRow Change) : Row :=
  historyFields r ++ [.text r.change.key, .ofOption .bytea r.change.value,
    .bool r.change.value.isNone, .bool r.change.isLocked]

/-- The entry of a row. Whether it is a deletion is told by the value alone. -/
def decode (row : Row) : Except StoreError (HistoryRow Change) := do
  let id ← (Row.at row 0).readInt64
  let version ← (Row.at row 1).readInt64
  let entity ← (Row.at row 2).readEntityId
  let key ← (Row.at row 3).readText
  let value ← (Row.at row 4).readBytes?
  let isLocked ← (Row.at row 6).readBool
  return ⟨id, version, entity, ⟨key, value, isLocked⟩⟩

def domain : ListDomain where
  name := .metadata
  Key := String
  decideKey := inferInstance
  Change := Change
  Singleton := Empty
  entryTable := entryTable
  keyColumns := ["entity_id", "key"]
  keyValues key := [.text key]
  aggregateSchema := listTable "entity_metadata_aggregate_history" "entity_id"
  singletonTable := none
  meaningOf
    | .metadataEntry key value isLocked, _ => .ok (some (.entry ⟨key, value, isLocked⟩))
    | _, _ => .ok none
  keyOf c := c.key
  isDeletion c := c.value.isNone
  encodeEntry := encode
  decodeEntry := decode

end LedgerHistory.Metadata
