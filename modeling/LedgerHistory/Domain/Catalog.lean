import LedgerHistory.Aggregate.Recorder
import LedgerHistory.Domain.AuthorizedDepositor
import LedgerHistory.Domain.MethodRoyalty
import LedgerHistory.Domain.Metadata
import LedgerHistory.Domain.Plain
import LedgerHistory.Domain.ResourcePreference
import LedgerHistory.Domain.RoleAssignment

/-!
# The catalog of domains

All domains, the tables that they write to, and one type of recorders for all of them.
-/

namespace LedgerHistory

/-- The domains with lists. -/
inductive ListKind
  | metadata
  | roleAssignment
  | methodRoyalty
  | resourcePreference
  | authorizedDepositor
  deriving DecidableEq, Repr

def ListKind.domain : ListKind → ListDomain
  | .metadata => Metadata.domain
  | .roleAssignment => RoleAssignment.domain
  | .methodRoyalty => MethodRoyalty.domain
  | .resourcePreference => Preference.domain
  | .authorizedDepositor => Depositor.domain

/-- The domains without lists. -/
inductive PlainKind
  | defaultDepositRule
  | componentState
  deriving DecidableEq, Repr

def PlainKind.domain : PlainKind → PlainDomain
  | .defaultDepositRule => DepositRule.domain
  | .componentState => ComponentState.domain

def ListKind.all : List ListKind :=
  [.metadata, .roleAssignment, .methodRoyalty, .resourcePreference, .authorizedDepositor]

/-- All domains without lists. -/
def PlainKind.all : List PlainKind := [.defaultDepositRule, .componentState]

/-- The tables of a domain with lists as the catalog lists them: singletons stand before the
aggregates that point to them. -/
def ListKind.catalogTables (k : ListKind) : List Table :=
  [k.domain.entryTable] ++ (k.domain.singletonTable.map (·.table)).toList
    ++ [k.domain.aggregateSchema.table]

/-- Every table that can be written to. -/
def outputTables : List Table :=
  ListKind.all.flatMap ListKind.catalogTables ++ PlainKind.all.map (·.domain.table)

def tableNamed? (name : String) : Option Table := outputTables.find? (·.name = name)

/-- A domain on its way through an invocation. -/
inductive Recorder
  | list (k : ListKind) (p : ListRecorder k.domain)
  | plain (k : PlainKind) (p : PlainRecorder k.domain)

namespace Recorder

/-- A recorder of a domain that has visited nothing. -/
def new (warnLength : Nat) : DomainName → Recorder
  | .metadata => .list .metadata { warnLength }
  | .roleAssignment => .list .roleAssignment { warnLength }
  | .methodRoyalty => .list .methodRoyalty { warnLength }
  | .resourcePreference => .list .resourcePreference { warnLength }
  | .authorizedDepositor => .list .authorizedDepositor { warnLength }
  | .defaultDepositRule => .plain .defaultDepositRule {}
  | .componentState => .plain .componentState {}

def domain : Recorder → DomainName
  | .list k _ => k.domain.name
  | .plain k _ => k.domain.name

/-- The tables that the domain writes to. -/
def tables : Recorder → List Table
  | .list k _ => k.domain.tables
  | .plain k _ => [k.domain.table]

def addEvent (p : Recorder) (version : Int64) (entity : Entity) (s : Substate)
    (known : KnownEntities) : Except InvocationError Recorder :=
  match p with
  | .list k p => (p.addEvent version entity s known).map (.list k)
  | .plain k p => (p.addEvent version entity s).map (.plain k)

/-- Loads the prior rows that the changes touch. -/
def loadLatest : Recorder → Action Recorder
  | .list k p => return .list k (← p.loadLatest)
  | .plain k p => return .plain k p

def makeRows (p : Recorder) (allocator : Allocator) : RowsMade Recorder :=
  match p with
  | .list k p =>
    let done := p.makeRows allocator
    ⟨done.result, .list k done.recorder, done.allocator, done.warnings⟩
  | .plain k p =>
    let done := p.makeRows allocator
    ⟨done.result, .plain k done.recorder, done.allocator, done.warnings⟩

def batches : Recorder → List Batch
  | .list _ p => p.batches
  | .plain _ p => p.batches

theorem domain_new (warnLength : Nat) (d : DomainName) : (new warnLength d).domain = d := by
  cases d <;> rfl

end Recorder

end LedgerHistory
