import LedgerHistory.Aggregate.Domain
import LedgerHistory.Invocation.Grouping

/-!
# Changes and prior state

What a pass starts from: the changes of a domain, grouped by entity and state version in order
of arrival, and the most recent rows of the entities and keys that they touch.
-/

namespace LedgerHistory

/-- What changes are grouped by: there is one aggregate row for each entity and state version. -/
structure GroupKey where
  entity : EntityId
  stateVersion : Int64
  deriving DecidableEq

/-- The changes of one group, in order of arrival. -/
structure ChangeGroup (χ σ : Type) where
  entries : List χ := []
  singletons : List σ := []

def ChangeGroup.add {χ σ : Type} (g : ChangeGroup χ σ) : Meaning χ σ → ChangeGroup χ σ
  | .entry c => { g with entries := g.entries ++ [c] }
  | .singleton s => { g with singletons := g.singletons ++ [s] }

/-- The changes of a domain, grouped in order of arrival. -/
structure GroupedChanges (d : ListDomain) where
  groups : Grouping GroupKey (ChangeGroup d.Change d.Singleton) := {}

namespace GroupedChanges

variable {d : ListDomain}

def empty : GroupedChanges d := {}

def add (c : GroupedChanges d) (key : GroupKey) (change : Meaning d.Change d.Singleton) :
    GroupedChanges d :=
  ⟨c.groups.update key {} (·.add change)⟩

def toList (c : GroupedChanges d) : List (GroupKey × ChangeGroup d.Change d.Singleton) :=
  c.groups.entries

def entities (c : GroupedChanges d) : List EntityId := c.groups.keys.map (·.entity)

def entryKeys (c : GroupedChanges d) : List d.EntryKey :=
  c.toList.flatMap fun (key, g) => g.entries.map fun change => (key.entity, d.keyOf change)

end GroupedChanges

/-- The most recent aggregate of an entity. -/
inductive LatestAggregate
  /-- One that was stored, or finished by an earlier pass. -/
  | settled (a : Aggregate)
  /-- One that the running pass made, by its place among the pass's aggregates. -/
  | pending (place : Nat)
  deriving DecidableEq

/-- The most recent aggregate of each entity and the most recent entry of each key. -/
structure LatestRows (d : ListDomain) where
  aggregates : Dictionary EntityId LatestAggregate := .empty
  entries : Dictionary d.EntryKey d.Entry := .empty

namespace LatestRows

variable {d : ListDomain}

def empty : LatestRows d := {}

/-- Takes an aggregate as the most recent one of its entity. -/
def putAggregate (p : LatestRows d) (a : Aggregate) : LatestRows d :=
  { p with aggregates := p.aggregates.insert a.entity (.settled a) }

/-- Takes an entry as the most recent one of its key. -/
def putEntry (p : LatestRows d) (e : d.Entry) : LatestRows d :=
  { p with entries := p.entries.insert (d.entryKey e) e }

/-- The most recent settled aggregate of an entity. One that a pass is still making is not seen. -/
def aggregate? (p : LatestRows d) (entity : EntityId) : Option Aggregate :=
  match p.aggregates.get? entity with
  | some (.settled a) => some a
  | _ => none

/-- The most recent entry of a key. -/
def entry? (p : LatestRows d) (key : d.EntryKey) : Option d.Entry := p.entries.get? key

/-- Takes the aggregates that a pass made as settled. -/
def settle (p : LatestRows d) (made : List Aggregate) : LatestRows d :=
  { p with aggregates := p.aggregates.map fun _ slot =>
      match slot with
      | .settled a => .settled a
      | .pending i => (made[i]?.map LatestAggregate.settled).getD (.pending i) }

end LatestRows

end LedgerHistory
