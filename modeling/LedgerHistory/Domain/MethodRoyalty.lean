import LedgerHistory.Aggregate.Domain

/-!
# Method royalties

The royalties of a component: one entry for each method.
-/

namespace LedgerHistory.MethodRoyalty

def entryTable : Table :=
  ⟨"component_method_royalty_entry_history", historyColumns "entity_id" ++
    [.required "method_name" .text, .optional "royalty_amount" .jsonb,
      .required "is_locked" .bool]⟩

/-- A change of one method. Without an amount the royalty was removed. -/
structure Change where
  methodName : String
  amount : Option Document
  isLocked : Bool
  deriving DecidableEq

def encode (r : HistoryRow Change) : Row :=
  historyFields r ++ [.text r.change.methodName, .ofOption .jsonb r.change.amount,
    .bool r.change.isLocked]

def decode (row : Row) : Except StoreError (HistoryRow Change) := do
  let id ← (Row.at row 0).readInt64
  let version ← (Row.at row 1).readInt64
  let entity ← (Row.at row 2).readEntityId
  let methodName ← (Row.at row 3).readText
  let amount ← (Row.at row 4).readDocument?
  let isLocked ← (Row.at row 5).readBool
  return ⟨id, version, entity, ⟨methodName, amount, isLocked⟩⟩

def domain : ListDomain where
  name := .methodRoyalty
  Key := String
  decideKey := inferInstance
  Change := Change
  Singleton := Empty
  entryTable := entryTable
  keyColumns := ["entity_id", "method_name"]
  keyValues name := [.text name]
  aggregateSchema := listTable "component_method_royalty_aggregate_history" "entity_id"
  singletonTable := none
  meaningOf
    | .methodRoyalty name amount isLocked, _ => .ok (some (.entry ⟨name, amount, isLocked⟩))
    | _, _ => .ok none
  keyOf c := c.methodName
  isDeletion c := c.amount.isNone
  encodeEntry := encode
  decodeEntry := decode

end LedgerHistory.MethodRoyalty
