import LedgerHistory.Json.Basic
import LedgerHistory.Ledger.Label

/-!
# Substates

A substate is a typed piece of an entity's state. Substates with a key have an optional value; the
lack of one records that the key was removed.
-/

namespace LedgerHistory

/-- A badge whose holder may deposit into an account that else refuses deposits. -/
inductive DepositorBadge
  /-- Any amount of a resource. -/
  | resource (resource : Address)
  /-- One item of a resource, by its local id. -/
  | nonFungible (resource : Address) (localId : String)
  deriving DecidableEq

namespace DepositorBadge

def resourceAddress : DepositorBadge → Address
  | .resource r => r
  | .nonFungible r _ => r

def badgeType : DepositorBadge → BadgeType
  | .resource _ => .resource
  | .nonFungible _ _ => .nonFungible

def localId? : DepositorBadge → Option String
  | .resource _ => none
  | .nonFungible _ i => some i

end DepositorBadge

/-- A family of substates that is recorded together. -/
inductive DomainName
  | metadata
  | roleAssignment
  | methodRoyalty
  | resourcePreference
  | authorizedDepositor
  | defaultDepositRule
  | componentState
  deriving DecidableEq, Repr

namespace DomainName

/-- The name in messages and settings. -/
def text : DomainName → String
  | .metadata => "metadata"
  | .roleAssignment => "role_assignment"
  | .methodRoyalty => "method_royalty"
  | .resourcePreference => "resource_preference"
  | .authorizedDepositor => "authorized_depositor"
  | .defaultDepositRule => "default_deposit_rule"
  | .componentState => "component_state"

/-- All domains, in the order in which they are recorded. -/
def all : List DomainName :=
  [.metadata, .roleAssignment, .methodRoyalty, .resourcePreference, .authorizedDepositor,
    .defaultDepositRule, .componentState]

theorem mem_all (d : DomainName) : d ∈ all := by cases d <;> decide

end DomainName

/-- A typed piece of an entity's state. -/
inductive Substate
  | metadataEntry (key : String) (value : Option (List UInt8)) (isLocked : Bool)
  | roleAssignmentOwner (ownerRole : Document)
  | roleAssignmentRule (roleKey : String) (scope : ModuleId) (rule : Option Document)
  | methodRoyalty (methodName : String) (amount : Option Document) (isLocked : Bool)
  | resourcePreference (resource : Address) (preference : Option ResourcePreference)
  | authorizedDepositor (badge : DepositorBadge) (isDeleted : Bool)
  | defaultDepositRule (rule : DefaultDepositRule)
  | componentState (state : Document)
  /-- A type that is not listed here. -/
  | unknown
  deriving DecidableEq

namespace Substate

def typeName : Substate → String
  | .metadataEntry .. => "metadata_entry"
  | .roleAssignmentOwner .. => "role_assignment_owner"
  | .roleAssignmentRule .. => "role_assignment_rule"
  | .methodRoyalty .. => "method_royalty"
  | .resourcePreference .. => "resource_preference"
  | .authorizedDepositor .. => "authorized_depositor"
  | .defaultDepositRule .. => "default_deposit_rule"
  | .componentState .. => "component_state"
  | .unknown => "unknown"

/-- The domain that records the substate. -/
def domain? : Substate → Option DomainName
  | .metadataEntry .. => some .metadata
  | .roleAssignmentOwner .. => some .roleAssignment
  | .roleAssignmentRule .. => some .roleAssignment
  | .methodRoyalty .. => some .methodRoyalty
  | .resourcePreference .. => some .resourcePreference
  | .authorizedDepositor .. => some .authorizedDepositor
  | .defaultDepositRule .. => some .defaultDepositRule
  | .componentState .. => some .componentState
  | .unknown => none

/-- The addresses besides the entity's own that recording the substate needs resolved. -/
def mentions : Substate → List Address
  | .resourcePreference resource _ => [resource]
  | .authorizedDepositor badge _ => [badge.resourceAddress]
  | _ => []

/-- Whether the substate records that its key was removed. -/
def isDeletion : Substate → Bool
  | .metadataEntry _ value _ => value.isNone
  | .roleAssignmentRule _ _ rule => rule.isNone
  | .methodRoyalty _ amount _ => amount.isNone
  | .resourcePreference _ preference => preference.isNone
  | .authorizedDepositor _ isDeleted => isDeleted
  | _ => false

end Substate

end LedgerHistory
