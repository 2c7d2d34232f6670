import LedgerHistory.Aggregate.Domain

/-!
# Role assignments

The access rules of an entity: one entry for each role of each module, and the owner role, to which
every aggregate points.
-/

namespace LedgerHistory.RoleAssignment

def entryTable : Table :=
  ⟨"entity_role_assignments_entry_history", historyColumns "entity_id" ++
    [.required "key_role" .text, .required "key_module" (.enum (Label.storeType ModuleId)),
      .optional "role_assignments" .jsonb, .required "is_deleted" .bool]⟩

def ownerTable : Table :=
  ⟨"entity_role_assignments_owner_role_history", historyColumns "entity_id" ++
    [.required "role_assignments" .jsonb]⟩

def aggregateSchema : AggregateSchema :=
  ⟨⟨"entity_role_assignments_aggregate_history", historyColumns "entity_id" ++
    [.required "owner_role_id" .int8, .required "entry_ids" .int8Array]⟩,
    "entity_id", "entry_ids", some "owner_role_id"⟩

/-- A change of one role. Without a rule the role was removed. -/
structure Change where
  roleKey : String
  scope : ModuleId
  rule : Option Document
  deriving DecidableEq

def encode (r : HistoryRow Change) : Row :=
  historyFields r ++ [.text r.change.roleKey, .ofLabel r.change.scope,
    .ofOption .jsonb r.change.rule, .bool r.change.rule.isNone]

/-- The entry of a row. Whether it is a deletion is told by the rule alone. -/
def decode (row : Row) : Except StoreError (HistoryRow Change) := do
  let id ← (Row.at row 0).readInt64
  let version ← (Row.at row 1).readInt64
  let entity ← (Row.at row 2).readEntityId
  let roleKey ← (Row.at row 3).readText
  let scope ← readLabel ModuleId entryTable "key_module" (Row.at row 4)
  let rule ← (Row.at row 5).readDocument?
  return ⟨id, version, entity, ⟨roleKey, scope, rule⟩⟩

def domain : ListDomain where
  name := .roleAssignment
  Key := String × ModuleId
  decideKey := inferInstance
  Change := Change
  Singleton := Document
  entryTable := entryTable
  keyColumns := ["entity_id", "key_role", "key_module"]
  keyValues key := [.text key.1, .ofLabel key.2]
  aggregateSchema := aggregateSchema
  singletonTable := some ⟨ownerTable, fun r => historyFields r ++ [.jsonb r.change]⟩
  meaningOf
    | .roleAssignmentOwner ownerRole, _ => .ok (some (.singleton ownerRole))
    | .roleAssignmentRule roleKey scope rule, _ => .ok (some (.entry ⟨roleKey, scope, rule⟩))
    | _, _ => .ok none
  keyOf c := (c.roleKey, c.scope)
  isDeletion c := c.rule.isNone
  encodeEntry := encode
  decodeEntry := decode

end LedgerHistory.RoleAssignment
