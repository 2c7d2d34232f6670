import LedgerHistory.Json.Decoder
import LedgerHistory.Ledger.Extension
import LedgerHistory.Text.Hex
import LedgerHistory.Text.Utf8

/-!
# Ledger types as JSON

Each type has an `encode` and a `decode`. Variants are told by the field `type`; bytes are written in
hexadecimal, and read with any number of marks `0x` in front.
-/

namespace LedgerHistory

open Decoder (RecordField required)

namespace Address

def encode (a : Address) : Json := .string a.text

def decode : Decoder Address := Decoder.string.check fun s =>
  match ofString s with
  | .ok a => .ok a
  | .error e => .error (.rejected e.message)

end Address

namespace Entity

def encode (e : Entity) : Json :=
  .object [("address", e.address.encode), ("database_id", .ofInt e.id.number.toInt),
    ("global_address", .ofOption Address.encode e.globalAddress),
    ("state_version", .ofInt e.stateVersion.toInt)]

/-- An entity that is being read. -/
structure Partial where
  address : Option Address := none
  id : Option Int64 := none
  globalAddress : Option (Option Address) := none
  stateVersion : Option Int64 := none

def fields : List (RecordField Partial) :=
  [⟨"address", (·.address.isSome), fun o s p => do
      return { p with address := some (← Address.decode o s) }, false⟩,
    ⟨"database_id", (·.id.isSome), fun o s p => do
      return { p with id := some (← Decoder.int64 o s) }, false⟩,
    ⟨"global_address", (·.globalAddress.isSome), fun o s p => do
      return { p with globalAddress := some (← Address.decode.optional o s) }, false⟩,
    ⟨"state_version", (·.stateVersion.isSome), fun o s p => do
      return { p with stateVersion := some (← Decoder.int64 o s) }, false⟩]

/-- Reads an entity. A missing global address counts as null. -/
def decode : Decoder Entity := Decoder.record fields {} fun p => do
  let address ← required "address" p.address
  let id ← required "database_id" p.id
  let stateVersion ← required "state_version" p.stateVersion
  return ⟨address, ⟨id⟩, p.globalAddress.getD none, stateVersion⟩

end Entity

def Label.encode {α : Type} [Label α] (a : α) : Json := .string (label a)

def Label.decode {α : Type} [Label α] : Decoder α := Decoder.label (Label.variants α)

namespace DepositorBadge

def encode : DepositorBadge → Json
  | .resource r => .object [("type", Label.encode BadgeType.resource), ("resource", r.encode)]
  | .nonFungible r i =>
    .object [("type", Label.encode BadgeType.nonFungible), ("resource", r.encode),
      ("local_id", .string i)]

/-- A badge that is being read. -/
structure Partial where
  resource : Option Address := none
  localId : Option String := none

def resourceField : RecordField Partial :=
  ⟨"resource", (·.resource.isSome), fun o s p => do
    return { p with resource := some (← Address.decode o s) }, false⟩

def localIdField : RecordField Partial :=
  ⟨"local_id", (·.localId.isSome), fun o s p => do
    return { p with localId := some (← Decoder.string o s) }, false⟩

/-- Reads a badge of a kind. -/
def decodeContent : BadgeType → Decoder DepositorBadge
  | .resource => Decoder.record [resourceField] {} fun p => do
    return .resource (← required "resource" p.resource)
  | .nonFungible => Decoder.record [resourceField, localIdField] {} fun p => do
    return .nonFungible (← required "resource" p.resource) (← required "local_id" p.localId)

def decode : Decoder DepositorBadge :=
  Decoder.tagged (Decoder.variant (Label.variants BadgeType)) decodeContent

end DepositorBadge

namespace Substate

/-- A substate as JSON, with all its fields. -/
def encode (s : Substate) : Json :=
  .object (("type", .string s.typeName) :: match s with
    | .metadataEntry key value isLocked =>
      [("key", .string key), ("value", .ofOption (fun b => .string (Hex.encode b)) value),
        ("is_locked", .bool isLocked)]
    | .roleAssignmentOwner ownerRole => [("owner_role", ownerRole.value)]
    | .roleAssignmentRule roleKey scope rule =>
      [("role_key", .string roleKey), ("module", Label.encode scope),
        ("rule", .ofOption Document.value rule)]
    | .methodRoyalty methodName amount isLocked =>
      [("method_name", .string methodName), ("royalty_amount", .ofOption Document.value amount),
        ("is_locked", .bool isLocked)]
    | .resourcePreference resource preference =>
      [("resource", resource.encode), ("preference", .ofOption Label.encode preference)]
    | .authorizedDepositor badge isDeleted =>
      [("badge", badge.encode), ("is_deleted", .bool isDeleted)]
    | .defaultDepositRule rule => [("rule", Label.encode rule)]
    | .componentState state => [("state", state.value)]
    | .unknown => [])

/-- Drops the marks `0x` in front of digits. -/
def dropMarks : List UInt8 → List UInt8
  | 48 :: 120 :: rest => dropMarks rest
  | digits => digits

/-- Reads bytes in hexadecimal. -/
def decodeBytes : Decoder (List UInt8) := Decoder.string.check fun s =>
  match Hex.decodeBytes (dropMarks (Utf8.encode s)) with
  | .ok bytes => .ok bytes
  | .error f => .error (.rejected f.message)

/-- The parts that a substate may have, as far as they have been read. -/
structure Partial where
  name : Option String := none
  bytes : Option (Option (List UInt8)) := none
  flag : Option Bool := none
  document : Option Document := none
  optionalDocument : Option (Option Document) := none
  scope : Option ModuleId := none
  resource : Option Address := none
  preference : Option (Option ResourcePreference) := none
  badge : Option DepositorBadge := none
  rule : Option DefaultDepositRule := none

def nameField (name : String) : RecordField Partial :=
  ⟨name, (·.name.isSome), fun o s p => do
    return { p with name := some (← Decoder.string o s) }, false⟩

/-- A field with a truth value, false when it is missing. -/
def flagField (name : String) : RecordField Partial :=
  ⟨name, (·.flag.isSome), fun o s p => do return { p with flag := some (← Decoder.bool o s) }, true⟩

/-- A field with any value, which must be there. -/
def documentField (name : String) : RecordField Partial :=
  ⟨name, (·.document.isSome), fun o s p => do
    return { p with document := some (← Decoder.document o s) }, false⟩

/-- A field with any value, in which null counts as missing. -/
def optionalDocumentField (name : String) : RecordField Partial :=
  ⟨name, (·.optionalDocument.isSome), fun o s p => do
    return { p with optionalDocument := some (← Decoder.document.optional o s) }, true⟩

/-- The field of a metadata value. -/
def bytesField : RecordField Partial :=
  ⟨"value", (·.bytes.isSome), fun o s p => do
    return { p with bytes := some (← decodeBytes.optional o s) }, true⟩

def scopeField : RecordField Partial :=
  ⟨"module", (·.scope.isSome), fun o s p => do
    return { p with scope := some (← Label.decode o s) }, false⟩

def resourceField : RecordField Partial :=
  ⟨"resource", (·.resource.isSome), fun o s p => do
    return { p with resource := some (← Address.decode o s) }, false⟩

def preferenceField : RecordField Partial :=
  ⟨"preference", (·.preference.isSome), fun o s p => do
    return { p with preference := some (← Label.decode.optional o s) }, true⟩

def badgeField : RecordField Partial :=
  ⟨"badge", (·.badge.isSome), fun o s p => do
    return { p with badge := some (← DepositorBadge.decode o s) }, false⟩

def ruleField : RecordField Partial :=
  ⟨"rule", (·.rule.isSome), fun o s p => do
    return { p with rule := some (← Label.decode o s) }, false⟩

/-- The readers of each type's fields, under the types' names. -/
def contents : List (String × Decoder Substate) :=
  [("metadata_entry", Decoder.record [nameField "key", bytesField, flagField "is_locked"] {} fun p => do
      return .metadataEntry (← required "key" p.name) (p.bytes.getD none) (p.flag.getD false)),
    ("role_assignment_owner", Decoder.record [documentField "owner_role"] {} fun p => do
      return .roleAssignmentOwner (← required "owner_role" p.document)),
    ("role_assignment_rule",
      Decoder.record [nameField "role_key", scopeField, optionalDocumentField "rule"] {} fun p => do
        return .roleAssignmentRule (← required "role_key" p.name) (← required "module" p.scope)
          (p.optionalDocument.getD none)),
    ("method_royalty",
      Decoder.record [nameField "method_name", optionalDocumentField "royalty_amount",
        flagField "is_locked"] {} fun p => do
        return .methodRoyalty (← required "method_name" p.name) (p.optionalDocument.getD none)
          (p.flag.getD false)),
    ("resource_preference", Decoder.record [resourceField, preferenceField] {} fun p => do
      return .resourcePreference (← required "resource" p.resource) (p.preference.getD none)),
    ("authorized_depositor", Decoder.record [badgeField, flagField "is_deleted"] {} fun p => do
      return .authorizedDepositor (← required "badge" p.badge) (p.flag.getD false)),
    ("default_deposit_rule", Decoder.record [ruleField] {} fun p => do
      return .defaultDepositRule (← required "rule" p.rule)),
    ("component_state", Decoder.record [documentField "state"] {} fun p => do
      return .componentState (← required "state" p.document))]

/-- The reader of the fields of a tagged type. A type that is not listed is unknown. -/
def contentOf : Decoder.Tag → Decoder Substate
  | .name s => ((contents.find? (·.1 = s)).map (·.2)).getD (Decoder.noFields .unknown)
  | .index n => ((contents[n]?).map (·.2)).getD (Decoder.noFields .unknown)

def decode : Decoder Substate := Decoder.tagged .ok contentOf

end Substate

namespace SubstateEvent

def encode (e : SubstateEvent) : Json :=
  .object [("entity", e.entity.encode), ("substate", e.substate.encode)]

/-- An event that is being read. -/
structure Partial where
  entity : Option Address := none
  substate : Option Substate := none

def fields : List (RecordField Partial) :=
  [⟨"entity", (·.entity.isSome), fun o s p => do
      return { p with entity := some (← Address.decode o s) }, false⟩,
    ⟨"substate", (·.substate.isSome), fun o s p => do
      return { p with substate := some (← Substate.decode o s) }, false⟩]

def decode : Decoder SubstateEvent := Decoder.record fields {} fun p => do
  return ⟨← required "entity" p.entity, ← required "substate" p.substate⟩

end SubstateEvent

namespace VersionEvents

def encode (t : VersionEvents) : Json :=
  .object [("state_version", .ofInt t.stateVersion.toInt),
    ("events", .array (t.events.map SubstateEvent.encode))]

/-- A transaction that is being read. -/
structure Partial where
  stateVersion : Option Int64 := none
  events : Option (List SubstateEvent) := none

def fields : List (RecordField Partial) :=
  [⟨"state_version", (·.stateVersion.isSome), fun o s p => do
      return { p with stateVersion := some (← Decoder.int64 o s) }, false⟩,
    ⟨"events", (·.events.isSome), fun o s p => do
      return { p with events := some (← SubstateEvent.decode.list o s) }, true⟩]

def decode : Decoder VersionEvents := Decoder.record fields {} fun p => do
  return ⟨← required "state_version" p.stateVersion, p.events.getD []⟩

end VersionEvents

namespace LedgerExtension

def encode (x : LedgerExtension) : Json :=
  .object [("transactions", .array (x.transactions.map VersionEvents.encode))]

/-- The fields of an extension that is being read. -/
def fields : List (RecordField (Option (List VersionEvents))) :=
  [⟨"transactions", Option.isSome, fun o s _ => do
      return some (← VersionEvents.decode.list o s), true⟩]

def decode : Decoder LedgerExtension := Decoder.record fields none fun p => return ⟨p.getD []⟩

end LedgerExtension

end LedgerHistory
