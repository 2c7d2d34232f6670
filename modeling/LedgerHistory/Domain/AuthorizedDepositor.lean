import LedgerHistory.Aggregate.Domain

/-!
# Authorized depositors

The badges whose holders may deposit into an account: one entry for each badge.
-/

namespace LedgerHistory.Depositor

def entryTable : Table :=
  ⟨"account_authorized_depositor_entry_history", historyColumns "account_entity_id" ++
    [.required "is_deleted" .bool, .required "discriminator" (.enum (Label.storeType BadgeType)),
      .required "resource_entity_id" .int8, .optional "non_fungible_id" .text]⟩

/-- A badge whose resource is resolved. -/
inductive Key
  | resource (resource : EntityId)
  | nonFungible (resource : EntityId) (localId : String)
  deriving DecidableEq

namespace Key

def resourceId : Key → EntityId
  | resource r => r
  | nonFungible r _ => r

def badgeType : Key → BadgeType
  | resource _ => .resource
  | nonFungible _ _ => .nonFungible

def localId? : Key → Option String
  | resource _ => none
  | nonFungible _ i => some i

def ofBadge (resource : EntityId) : DepositorBadge → Key
  | .resource _ => .resource resource
  | .nonFungible _ i => .nonFungible resource i

def fields (k : Key) : Row :=
  [.ofLabel k.badgeType, .ofEntityId k.resourceId, .ofOption .text k.localId?]

end Key

/-- A change of one badge. -/
structure Change where
  key : Key
  isDeleted : Bool
  deriving DecidableEq

def encode (r : HistoryRow Change) : Row :=
  historyFields r ++ .bool r.change.isDeleted :: r.change.key.fields

/-- The entry of a row. The badge is read first; the local id only for an item. -/
def decode (row : Row) : Except StoreError (HistoryRow Change) := do
  let badgeType ← readLabel BadgeType entryTable "discriminator" (Row.at row 4)
  let resource ← (Row.at row 5).readEntityId
  let key ← match badgeType with
    | .resource => .ok (Key.resource resource)
    | .nonFungible => (Row.at row 6).readText.map (Key.nonFungible resource)
  let id ← (Row.at row 0).readInt64
  let version ← (Row.at row 1).readInt64
  let entity ← (Row.at row 2).readEntityId
  let isDeleted ← (Row.at row 3).readBool
  return ⟨id, version, entity, ⟨key, isDeleted⟩⟩

def domain : ListDomain where
  name := .authorizedDepositor
  Key := Key
  decideKey := inferInstance
  Change := Change
  Singleton := Empty
  entryTable := entryTable
  keyColumns := ["account_entity_id", "discriminator", "resource_entity_id", "non_fungible_id"]
  keyValues := Key.fields
  aggregateSchema := listTable "account_authorized_depositor_aggregate_history" "account_entity_id"
  singletonTable := none
  meaningOf
    | .authorizedDepositor badge isDeleted, known => do
      let resource ← (known.lookupGlobal badge.resourceAddress).1
      return some (.entry ⟨.ofBadge resource.id badge, isDeleted⟩)
    | _, _ => .ok none
  keyOf c := c.key
  isDeletion c := c.isDeleted
  encodeEntry := encode
  decodeEntry := decode

end LedgerHistory.Depositor
