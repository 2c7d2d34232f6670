import LedgerHistory.Domain.Catalog
import LedgerHistory.Configuration.Basic
import LedgerHistory.Ledger.Extension

/-!
# Recording an extension

One invocation records a ledger extension in one transaction. All enabled domains go through the
stages side by side; the transaction is committed when all have succeeded, and given up otherwise.
-/

namespace LedgerHistory

/-- What a committed invocation did. -/
structure InvocationReport where
  /-- The state versions of the first and the last transaction. -/
  stateVersions : Option (Int64 × Int64)
  events : Nat
  entitiesResolved : Nat := 0
  idsIssued : Int64 := 0
  /-- The number of rows written to each table, in the order of the tables' names. -/
  rowsWritten : List (String × Nat) := []
  stages : List Stage := []
  deriving DecidableEq

namespace InvocationReport

def totalRows (r : InvocationReport) : Nat := (r.rowsWritten.map (·.2)).foldr (· + ·) 0

end InvocationReport

namespace Configuration

/-- A recorder for each enabled domain. -/
def recorders (c : Configuration) : List Recorder :=
  c.domains.enabled.map (Recorder.new c.maxAggregateWarnLength)

/-- Lets the end of a stage be known, if that is wanted. -/
def announceStage (c : Configuration) (stage : Stage) : Action Unit :=
  if c.stageTimings then Action.log (.stageComplete stage) else return ()

end Configuration

/-- The domains on their way through an invocation, with the entities met. -/
structure Routing where
  recorders : List Recorder
  known : KnownEntities := .empty

namespace Routing

/-- Resolves an address, unless the invocation was cancelled. -/
def resolve (r : KnownEntities) (address : Address) (version : Int64) :
    Action (Entity × KnownEntities) := do
  Action.failIfCancelled .resolve
  r.resolve address version

/-- Resolves addresses in order. -/
def resolveAll (r : KnownEntities) (version : Int64) : List Address → Action KnownEntities
  | [] => return r
  | a :: rest => do
    let (_, r) ← resolve r a version
    resolveAll r version rest

/-- Lets the recorder of a domain visit an event. -/
def addEventIn (d : DomainName) (addEvent : Recorder → Except InvocationError Recorder) :
    List Recorder → Except InvocationError (List Recorder)
  | [] => .ok []
  | p :: rest =>
    if p.domain = d then (addEvent p).map (· :: rest) else (addEventIn d addEvent rest).map (p :: ·)

/-- Brings an event to the recorder of its domain, once the entity and the addresses that the
substate refers to are resolved. An event of a domain that is not recorded is passed over. -/
def route (r : Routing) (version : Int64) (e : SubstateEvent) : Action Routing :=
  match e.substate.domain? with
  | none => throw (.unsupportedShape none e.entity version e.substate.typeName)
  | some d =>
    if r.recorders.any (·.domain = d) then do
      let (entity, known) ← resolve r.known e.entity version
      let known ← resolveAll known version e.substate.mentions
      let recorders ← Action.ofExcept <|
        addEventIn d (fun p => p.addEvent version entity e.substate known) r.recorders
      return ⟨recorders, known⟩
    else return r

/-- Brings all events to their recorders. -/
def routeAll (r : Routing) : List (Int64 × SubstateEvent) → Action Routing
  | [] => return r
  | (version, e) :: rest => do routeAll (← r.route version e) rest

end Routing

/-- Lets every recorder make its rows. -/
def makeAllRows (allocator : Allocator) : List Recorder → Action (List Recorder × Allocator)
  | [] => return ([], allocator)
  | p :: rest => do
    Action.failIfCancelled .process
    let done := p.makeRows allocator
    done.warnings.forM fun w => Action.log (.warning w)
    Action.ofExcept done.result
    let (ps, allocator) ← makeAllRows done.allocator rest
    return (done.recorder :: ps, allocator)

/-- Writes the rows of all recorders, one recorder after another. -/
def writeRows (recorders : List Recorder) : Action WriteTally := do
  let (result, tally) ← ExceptT.lift (WriteTally.writeAll {} (recorders.flatMap Recorder.batches))
  Action.ofExcept result
  return tally

/-- The stages of an invocation inside its transaction. -/
def runStages (config : Configuration) (x : LedgerExtension) : Action InvocationReport := do
  let recorders := config.recorders
  let allocator ← Allocator.load (recorders.flatMap Recorder.tables)
  config.announceStage .loadSequences
  let routing ← Routing.routeAll { recorders } x.events
  config.announceStage .resolve
  let recorders ← routing.recorders.mapM Recorder.loadLatest
  config.announceStage .loadPriorState
  let (recorders, allocator) ← makeAllRows allocator recorders
  config.announceStage .process
  let tally ← writeRows recorders
  config.announceStage .write
  allocator.save
  config.announceStage .persistSequences
  return { stateVersions := x.stateVersions?, events := x.eventCount,
           entitiesResolved := routing.known.size, idsIssued := allocator.totalIssued,
           rowsWritten := tally.report,
           stages := [.loadSequences, .resolve, .loadPriorState, .process, .write,
             .persistSequences, .commit] }

def giveUp (e : InvocationError) : Script Unit := do
  match ← Script.perform .rollback with
  | .ok () => pure ()
  | .error cause => Script.log (.warning (.rollbackFailed cause)) (.done ())
  Script.log (.warning (.rolledBack e)) (.done ())

/-- Records an extension. One without events does not touch the store. -/
def recordExtension (config : Configuration) (x : LedgerExtension) :
    Script (Except InvocationError InvocationReport) :=
  if x.isEmpty then
    return .ok { stateVersions := x.stateVersions?, events := x.eventCount }
  else do
    match ← (Action.request .begin .begin).run with
    | .error e => return .error e
    | .ok () =>
      let outcome ← (do
        let report ← runStages config x
        Action.failIfCancelled .commit
        return report : Action InvocationReport).run
      match outcome with
      | .error e =>
        giveUp e
        return .error e
      | .ok report =>
        (do
          Action.perform .commit .commit
          config.announceStage .commit
          return report : Action InvocationReport).run

end LedgerHistory
