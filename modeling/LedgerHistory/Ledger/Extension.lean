import LedgerHistory.Ledger.Substate

/-!
# Ledger extensions

The committed transactions that one invocation records, in the order of their state versions.
-/

namespace LedgerHistory

/-- The change of a substate of an entity. -/
structure SubstateEvent where
  entity : Address
  substate : Substate
  deriving DecidableEq

/-- The changes committed at one state version, in order of emission. -/
structure VersionEvents where
  stateVersion : Int64
  events : List SubstateEvent := []
  deriving DecidableEq

/-- A run of committed transactions. -/
structure LedgerExtension where
  transactions : List VersionEvents := []
  deriving DecidableEq

namespace LedgerExtension

/-- The events with their state versions, in order. -/
def events (x : LedgerExtension) : List (Int64 × SubstateEvent) :=
  x.transactions.flatMap fun t => t.events.map fun e => (t.stateVersion, e)

def eventCount (x : LedgerExtension) : Nat := x.events.length

def isEmpty (x : LedgerExtension) : Bool := x.transactions.all (·.events.isEmpty)

/-- The state versions of the first and the last transaction. -/
def stateVersions? (x : LedgerExtension) : Option (Int64 × Int64) :=
  match x.transactions.head?, x.transactions.getLast? with
  | some first, some last => some (first.stateVersion, last.stateVersion)
  | _, _ => none

end LedgerExtension

end LedgerHistory
