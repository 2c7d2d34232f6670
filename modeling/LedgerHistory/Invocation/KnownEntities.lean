import LedgerHistory.Dictionary
import LedgerHistory.Invocation.Script

/-!
# Known entities

The entities that an invocation has met. The directory is asked once for each address. Entities are
also found by number and by global address, through indexes that are built when they are first needed
and again when a key is missing and entities have been added since.
-/

namespace LedgerHistory

/-- An index of entities: what it holds, the latest entity first, and how many entities there were
when it was built. -/
structure EntityIndex (κ : Type) where
  builtFrom : Nat := 0
  entries : List (κ × Entity) := []

/-- The entities that an invocation has met, in order, with two indexes. -/
structure KnownEntities where
  order : List Entity := []
  byId : EntityIndex EntityId := {}
  byGlobalAddress : EntityIndex Address := {}

namespace EntityIndex

variable {κ : Type} [DecidableEq κ]

/-- The index of the entities that have a key. Of two with one key the later one counts. -/
def build (keyOf : Entity → Option κ) (entities : List Entity) : EntityIndex κ :=
  ⟨entities.length, (entities.filterMap fun e => (keyOf e).map (·, e)).reverse⟩

/-- The entity that the index holds under a key. -/
def find? (index : EntityIndex κ) (key : κ) : Option Entity :=
  Dictionary.find? key index.entries

/-- The entity with a key, and the index, built anew if that can help. -/
def lookup (index : EntityIndex κ) (keyOf : Entity → Option κ) (entities : List Entity) (key : κ) :
    Option Entity × EntityIndex κ :=
  match index.find? key with
  | some e => (some e, index)
  | none =>
    let index := if index.builtFrom = entities.length then index else build keyOf entities
    (index.find? key, index)

end EntityIndex

namespace KnownEntities

/-- A roster that has met no entity. -/
def empty : KnownEntities := {}

/-- The entity met with an address. -/
def find? (r : KnownEntities) (address : Address) : Option Entity :=
  r.order.find? (·.address = address)

/-- Adds an entity. An address that was met keeps its entity, which is returned. -/
def insert (r : KnownEntities) (e : Entity) : Entity × KnownEntities :=
  match r.find? e.address with
  | some known => (known, r)
  | none => (e, { r with order := r.order ++ [e] })

/-- The entity with an address, which the directory is asked for if it was not met yet. -/
def resolve (r : KnownEntities) (address : Address) (stateVersion : Int64) :
    Action (Entity × KnownEntities) :=
  match r.find? address with
  | some e => return (e, r)
  | none => do
    let e ← Action.perform .resolve (.resolveEntity address stateVersion)
    return r.insert e

/-- The entity met with an address. -/
def get (r : KnownEntities) (address : Address) : Except InvocationError Entity :=
  match r.find? address with
  | some e => .ok e
  | none => .error (.notFound (.address address))

/-- The key of an entity in the index by number. -/
def idKey (e : Entity) : Option EntityId := some e.id

/-- The key of an entity in the index by global address: that of a global entity is its own. -/
def globalKey (e : Entity) : Option Address := if e.isGlobal then some e.address else none

def lookupId (r : KnownEntities) (id : EntityId) :
    Except InvocationError Entity × KnownEntities :=
  let (found, byId) := r.byId.lookup idKey r.order id
  (found.elim (.error (.notFound (.id id))) .ok, { r with byId })

def lookupGlobal (r : KnownEntities) (address : Address) :
    Except InvocationError Entity × KnownEntities :=
  let (found, byGlobalAddress) := r.byGlobalAddress.lookup globalKey r.order address
  (found.elim (.error (.notFound (.globalAddress address))) .ok, { r with byGlobalAddress })

/-- The entities first seen at a state version, in order. -/
def atVersion (r : KnownEntities) (stateVersion : Int64) : List Entity :=
  r.order.filter (·.stateVersion = stateVersion)

/-- The number of entities met. -/
def size (r : KnownEntities) : Nat := r.order.length

end KnownEntities

end LedgerHistory
