import LedgerHistory.Ledger.Address

/-!
# Labels

The small closed vocabularies of the ledger. Each is stored as a label of an enum type of the store.
-/

namespace LedgerHistory

/-- A vocabulary: its values, each with a label, and the name of its enum type. -/
class Label (α : Type) where
  storeType : String
  all : List α
  label : α → String

export Label (label)

def Label.parse {α : Type} [Label α] (s : String) : Except InvalidText α :=
  match (Label.all (α := α)).find? (label · = s) with
  | some a => .ok a
  | none => .error (.unknownLabel (Label.storeType α) s)

/-- The values under their labels. -/
def Label.variants (α : Type) [Label α] : List (String × α) := Label.all.map fun a => (label a, a)

/-- The part of an object that a role rule belongs to. -/
inductive ModuleId
  | main
  | metadata
  | royalty
  | roleAssignment
  deriving DecidableEq, Repr

instance : Label ModuleId where
  storeType := "module_id"
  all := [.main, .metadata, .royalty, .roleAssignment]
  label
    | .main => "main"
    | .metadata => "metadata"
    | .royalty => "royalty"
    | .roleAssignment => "role_assignment"

/-- Whether an account takes deposits of one resource. -/
inductive ResourcePreference
  | allowed
  | disallowed
  deriving DecidableEq, Repr

instance : Label ResourcePreference where
  storeType := "account_resource_preference_rule"
  all := [.allowed, .disallowed]
  label
    | .allowed => "allowed"
    | .disallowed => "disallowed"

/-- Whether an account takes deposits for which it has no preference. -/
inductive DefaultDepositRule
  | accept
  | reject
  | allowExisting
  deriving DecidableEq, Repr

instance : Label DefaultDepositRule where
  storeType := "account_default_deposit_rule"
  all := [.accept, .reject, .allowExisting]
  label
    | .accept => "accept"
    | .reject => "reject"
    | .allowExisting => "allow_existing"

/-- The kind of a depositor's badge. -/
inductive BadgeType
  | resource
  | nonFungible
  deriving DecidableEq, Repr

instance : Label BadgeType where
  storeType := "authorized_depositor_badge_type"
  all := [.resource, .nonFungible]
  label
    | .resource => "resource"
    | .nonFungible => "non_fungible"

theorem ModuleId.parse_label (a : ModuleId) : Label.parse (label a) = .ok a := by
  cases a <;> rfl

theorem ResourcePreference.parse_label (a : ResourcePreference) :
    Label.parse (label a) = .ok a := by
  cases a <;> rfl

theorem DefaultDepositRule.parse_label (a : DefaultDepositRule) :
    Label.parse (label a) = .ok a := by
  cases a <;> rfl

theorem BadgeType.parse_label (a : BadgeType) : Label.parse (label a) = .ok a := by
  cases a <;> rfl

end LedgerHistory
