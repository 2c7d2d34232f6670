import LedgerHistory.Aggregate.Domain

/-!
# Resource preferences

Whether an account takes deposits of a resource: one entry for each resource.
-/

namespace LedgerHistory.Preference

def ruleColumn : String := "account_resource_preference_rule"

def entryTable : Table :=
  ⟨"account_resource_preference_rule_entry_history", historyColumns "account_entity_id" ++
    [.required "resource_entity_id" .int8,
      .optional ruleColumn (.enum (Label.storeType ResourcePreference)),
      .required "is_deleted" .bool]⟩

/-- A change of the preference for one resource. Without a preference it was removed. -/
structure Change where
  resource : EntityId
  preference : Option ResourcePreference
  deriving DecidableEq

def encode (r : HistoryRow Change) : Row :=
  historyFields r ++ [.ofEntityId r.change.resource, .ofOption .ofLabel r.change.preference,
    .bool r.change.preference.isNone]

/-- The entry of a row. Whether it is a deletion is told by the preference alone. -/
def decode (row : Row) : Except StoreError (HistoryRow Change) := do
  let id ← (Row.at row 0).readInt64
  let version ← (Row.at row 1).readInt64
  let entity ← (Row.at row 2).readEntityId
  let resource ← (Row.at row 3).readEntityId
  let preference ← readLabel? ResourcePreference entryTable ruleColumn (Row.at row 4)
  return ⟨id, version, entity, ⟨resource, preference⟩⟩

def domain : ListDomain where
  name := .resourcePreference
  Key := EntityId
  decideKey := inferInstance
  Change := Change
  Singleton := Empty
  entryTable := entryTable
  keyColumns := ["account_entity_id", "resource_entity_id"]
  keyValues resource := [.ofEntityId resource]
  aggregateSchema :=
    listTable "account_resource_preference_rule_aggregate_history" "account_entity_id"
  singletonTable := none
  meaningOf
    | .resourcePreference address preference, known => do
      let resource ← (known.lookupGlobal address).1
      return some (.entry ⟨resource.id, preference⟩)
    | _, _ => .ok none
  keyOf c := c.resource
  isDeletion c := c.preference.isNone
  encodeEntry := encode
  decodeEntry := decode

end LedgerHistory.Preference
