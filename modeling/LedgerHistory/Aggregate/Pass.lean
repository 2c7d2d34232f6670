import LedgerHistory.Aggregate.Changes
import LedgerHistory.Invocation.Allocator

/-!
# The move-to-front pass

A pass goes through the groups in order. Each change becomes an entry row; its id goes to the front
of the entity's list, unless it is a deletion, and the id of the key's entry before it leaves the list.
The first group of an entity at a state version carries the entity's list on into a new aggregate row.
-/

namespace LedgerHistory

/-- The rows that a pass made, in the order of their ids. -/
structure NewRows (d : ListDomain) where
  entries : List d.Entry := []
  aggregates : List Aggregate := []
  singletons : List d.SingletonRow := []

def NewRows.count {d : ListDomain} (rows : NewRows d) : Nat :=
  rows.entries.length + rows.aggregates.length + rows.singletons.length

/-- What a pass works on. -/
structure Pass (d : ListDomain) where
  prior : LatestRows d
  allocator : Allocator
  rows : NewRows d := {}

/-- A step of a pass. One that fails leaves what it did before. -/
abbrev PassStep (d : ListDomain) := ExceptT InvocationError (StateM (Pass d))

namespace Pass

variable {d : ListDomain}

/-- Changes the rows made so far. -/
def modifyRows (f : NewRows d → NewRows d) : PassStep d Unit :=
  modify fun p => { p with rows := f p.rows }

def issue (t : Table) : PassStep d Int64 := do
  match (← get).allocator.next t with
  | .error e => throw e
  | .ok (id, allocator) =>
    modify fun p => { p with allocator }
    return id

/-- Fails for a group. -/
def violation {α : Type} (key : GroupKey) (v : Violation) : PassStep d α :=
  throw (.invariantViolation d.name key.entity key.stateVersion v)

/-- Makes a row of each singleton; the answer is the id of the last. -/
def recordSingletons (key : GroupKey) (t : SingletonTable d.Singleton) :
    Option Int64 → List d.Singleton → PassStep d (Option Int64)
  | last, [] => return last
  | _, value :: rest => do
    let id ← issue t.table
    modifyRows fun rows => { rows with
      singletons := rows.singletons ++ [⟨id, key.stateVersion, key.entity, value⟩] }
    recordSingletons key t (some id) rest

/-- The id of the group's new singleton, if it has any. -/
def newSingleton (key : GroupKey) (g : ChangeGroup d.Change d.Singleton) :
    PassStep d (Option Int64) :=
  match g.singletons, d.singletonTable with
  | [], _ => return none
  | _ :: _, none => violation key .noSingletonTable
  | singletons, some t => recordSingletons key t none singletons

/-- Makes an aggregate that carries on the one before it. -/
def openAggregate (key : GroupKey) (singleton : Option Int64) (previous : Option Aggregate) :
    PassStep d Nat := do
  let singleton := singleton.or (previous.bind (·.singleton))
  if d.aggregateSchema.singletonColumn.isSome && singleton.isNone then
    violation key .noSingleton
  let id ← issue d.aggregateSchema.table
  let place := (← get).rows.aggregates.length
  let list := (previous.map (·.list)).getD {}
  modifyRows fun rows => { rows with
    aggregates := rows.aggregates ++ [⟨id, key.stateVersion, key.entity, list, singleton⟩] }
  modify fun p => { p with prior := { p.prior with
    aggregates := p.prior.aggregates.insert key.entity (.pending place) } }
  return place

/-- Changes the aggregate at a place. -/
def modifyAggregate (place : Nat) (f : Aggregate → Aggregate) : PassStep d Unit :=
  modifyRows fun rows => { rows with aggregates := rows.aggregates.modify place f }

/-- The place of the group's aggregate: the one that this pass made for the same state version, or
else a new one. -/
def aggregatePlace (key : GroupKey) (singleton : Option Int64) : PassStep d Nat := do
  let pass ← get
  match pass.prior.aggregates.get? key.entity with
  | none => openAggregate key singleton none
  | some (.settled a) =>
    if a.stateVersion = key.stateVersion then violation key .alreadyPersisted
    else openAggregate key singleton (some a)
  | some (.pending place) =>
    match pass.rows.aggregates[place]? with
    | none => openAggregate key singleton none
    | some a =>
      if a.stateVersion = key.stateVersion then
        if singleton.isSome then modifyAggregate place ({ · with singleton })
        return place
      else openAggregate key singleton (some a)

/-- The list after an entry with an id took the place of the key's entry before it. -/
def moveToFront (previous : Option Int64) (isDeletion : Bool) (id : Int64) (l : RecencyList) :
    RecencyList :=
  let l := match previous with
    | some old => l.remove old
    | none => l
  if isDeletion then l else l.putFront id

/-- Makes a row of a change and moves it to the front of the list. -/
def recordEntry (key : GroupKey) (place : Nat) (change : d.Change) : PassStep d Unit := do
  let id ← issue d.entryTable
  let entry : d.Entry := ⟨id, key.stateVersion, key.entity, change⟩
  let previous := ((← get).prior.entry? (d.entryKey entry)).map (·.id)
  modifyAggregate place fun a =>
    { a with list := moveToFront previous (d.isDeletion change) id a.list }
  modify fun p => { p with prior := p.prior.putEntry entry }
  modifyRows fun rows => { rows with entries := rows.entries ++ [entry] }

def recordGroup (group : GroupKey × ChangeGroup d.Change d.Singleton) : PassStep d Unit := do
  let singleton ← newSingleton group.1 group.2
  let place ← aggregatePlace group.1 singleton
  group.2.entries.forM (recordEntry group.1 place)

def recordGroups (groups : List (GroupKey × ChangeGroup d.Change d.Singleton)) : PassStep d Unit :=
  groups.forM recordGroup

end Pass

/-- What a pass leaves: the rows it made, or why it failed, and in both cases the prior state and the
counters as far as they were changed. -/
structure PassResult (d : ListDomain) where
  result : Except InvocationError (NewRows d)
  prior : LatestRows d
  allocator : Allocator

def Pass.run {d : ListDomain} (changes : GroupedChanges d) (prior : LatestRows d)
    (allocator : Allocator) : PassResult d :=
  match ((Pass.recordGroups changes.toList).run.run ⟨prior, allocator, {}⟩ :
      Except InvocationError Unit × Pass d) with
  | (.error e, pass) => ⟨.error e, pass.prior, pass.allocator⟩
  | (.ok (), pass) => ⟨.ok pass.rows, pass.prior.settle pass.rows.aggregates, pass.allocator⟩

end LedgerHistory
