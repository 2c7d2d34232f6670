import LedgerHistory.Ledger.Substate
import LedgerHistory.Store.Field

/-!
# Why an invocation fails

No error is mended on the spot. Each ends the invocation, whose transaction is given up.
-/

namespace LedgerHistory

inductive Stage
  | begin
  | loadSequences
  | resolve
  | loadPriorState
  | process
  | write
  | persistSequences
  | commit
  deriving DecidableEq, Repr

def Stage.name : Stage → String
  | .begin => "begin"
  | .loadSequences => "load_sequences"
  | .resolve => "resolve"
  | .loadPriorState => "load_prior_state"
  | .process => "process"
  | .write => "write"
  | .persistSequences => "persist_sequences"
  | .commit => "commit"

/-- What an entity was looked up by. -/
inductive EntityKey
  | address (address : Address)
  | id (id : EntityId)
  | globalAddress (address : Address)
  deriving DecidableEq

def EntityKey.text : EntityKey → String
  | .address a => "address " ++ a.text
  | .id i => s!"database id {i.number}"
  | .globalAddress a => "global address " ++ a.text

/-- A rule that changes break. -/
inductive Violation
  /-- A singleton changes in a domain that has none. -/
  | noSingletonTable
  /-- The entity has an aggregate at this state version already. -/
  | alreadyPersisted
  /-- An aggregate needs a singleton, and there is neither a new nor an old one. -/
  | noSingleton
  deriving DecidableEq, Repr

def Violation.message : Violation → String
  | .noSingletonTable => "singleton change in a domain without a singleton table"
  | .alreadyPersisted => "aggregate at this state version is already persisted"
  | .noSingleton => "no singleton established and none to carry forward"

/-- Why a configuration cannot be used. -/
inductive ConfigFault
  | unreadable (path cause : String)
  /-- The text is no configuration. -/
  | malformed
  /-- A number is too great to be written. -/
  | unwritable
  deriving DecidableEq, Repr

/-- Why an invocation fails. -/
inductive InvocationError
  /-- An entity was looked up that the invocation never resolved. -/
  | notFound (key : EntityKey)
  | invariantViolation (domain : DomainName) (entity : EntityId) (stateVersion : Int64)
      (violation : Violation)
  /-- A substate that its domain cannot record; without a domain, one that no domain records. -/
  | unsupportedShape (domain : Option DomainName) (entity : Address) (stateVersion : Int64)
      (typeName : String)
  | store (stage : Stage) (cause : StoreError)
  | cancelled (stage : Stage)
  /-- An id was asked for a table whose sequence was not loaded. -/
  | unknownSequence (table : String)
  | config (fault : ConfigFault)
  deriving DecidableEq

namespace InvocationError

def message : InvocationError → String
  | .notFound key => key.text ++ " was not resolved in this invocation"
  | .invariantViolation domain entity version violation =>
    s!"invariant violated in {domain.text} for entity {entity.number} at state version {version}: {violation.message}"
  | .unsupportedShape domain entity version typeName =>
    "unsupported substate `" ++ typeName ++ "` in " ++ (domain.map (·.text)).getD "dispatch"
      ++ s!" for entity {entity.text} at state version {version}"
  | .store stage cause => s!"store failure during {stage.name}: {cause.message}"
  | .cancelled stage => s!"invocation cancelled during {stage.name}"
  | .unknownSequence table => s!"no sequence loaded for table {table}"
  | .config (.unreadable path cause) => s!"invalid configuration: {path}: {cause}"
  | .config _ => "invalid configuration"

/-- Whether the same extension could succeed when it is offered again. -/
def mayRetry : InvocationError → Bool
  | .store _ _ => true
  | .cancelled _ => true
  | _ => false

end InvocationError

/-- What an invocation warns of. -/
inductive Warning
  | longAggregate (domain : DomainName) (entity : EntityId) (stateVersion : Int64) (length : Nat)
  | rollbackFailed (cause : StoreError)
  | rolledBack (error : InvocationError)
  deriving DecidableEq

end LedgerHistory
