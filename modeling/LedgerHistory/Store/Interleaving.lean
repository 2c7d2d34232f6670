import LedgerHistory.Store.Transaction

/-!
# Interleaved transactions

One store with any number of open transactions, each under a name. An operation goes to the store
itself or to one of the transactions; a sequence of operations is an interleaving.
-/

namespace LedgerHistory

/-- A store with its open transactions. -/
structure OpenStore where
  store : Store := {}
  live : Dictionary String Transaction := .empty

/-- An operation on a store with open transactions. -/
inductive StoreOperation
  | seed (table : Table) (rows : List Row)
  | register (e : Entity)
  | rows (table : String)
  | sequence (name : String)
  | entityCount
  | failNextCopy
  /-- Opens a transaction, in place of one of that name. -/
  | begin (name : String)
  | next (name : String) (tables : List Table)
  | set (name : String) (values : List (Table × Int64))
  | latest (name : String) (query : LatestQuery)
  | copy (name : String) (table : Table) (stream : List UInt8)
  | resolve (name : String) (address : Address) (stateVersion : Int64)
  | commit (name : String)
  /-- Gives a transaction up. -/
  | rollback (name : String)

inductive StoreAnswer
  | done
  | number (n : Option Int64)
  | count (n : Nat)
  | values (ns : List Int64)
  | rows (rows : List Row)
  | entity (e : Entity)
  | error (e : StoreError)
  | noTransaction
  deriving DecidableEq

namespace StoreAnswer

/-- The answer of an operation that may fail. -/
def ofExcept {α : Type} (f : α → StoreAnswer) : Except StoreError α → StoreAnswer
  | .ok a => f a
  | .error e => .error e

end StoreAnswer

namespace OpenStore

/-- Changes the store alone. -/
def withStore (s : OpenStore) (store : Store) : OpenStore := { s with store }

/-- Puts a connection back in the place of its transaction. -/
def withConnection (s : OpenStore) (name : String) (c : Connection) : OpenStore :=
  ⟨c.store, s.live.insert name c.transaction⟩

/-- Lets a transaction act, if it is open. -/
def inTransaction (s : OpenStore) (name : String)
    (f : Connection → StoreAnswer × OpenStore) : StoreAnswer × OpenStore :=
  match s.live.get? name with
  | none => (.noTransaction, s)
  | some t => f ⟨s.store, t⟩

def step (s : OpenStore) : StoreOperation → StoreAnswer × OpenStore
  | .seed t rows =>
    let (store, r) := s.store.seed t rows
    (.ofExcept (fun _ => .done) r, s.withStore store)
  | .register e => (.done, s.withStore (s.store.register e))
  | .rows table => (.rows (s.store.rows table), s)
  | .sequence name => (.number (s.store.sequenceValue? name), s)
  | .entityCount => (.count s.store.entityCount, s)
  | .failNextCopy => (.done, s.withStore s.store.failCopy)
  | .begin name => (.done, { s with live := s.live.insert name s.store.begin })
  | .next name tables => s.inTransaction name fun c =>
    let (values, c) := c.advanceSequences tables
    (.values values, s.withConnection name c)
  | .set name values => s.inTransaction name fun c =>
    (.done, s.withConnection name (c.raiseSequences values))
  | .latest name query => s.inTransaction name fun c =>
    (.ofExcept .rows (c.latest query), s)
  | .copy name t stream => s.inTransaction name fun c =>
    let (r, c) := c.bulkLoad t stream
    (.ofExcept .count r, s.withConnection name c)
  | .resolve name address version => s.inTransaction name fun c =>
    let (e, c) := c.resolve address version
    (.entity e, s.withConnection name c)
  | .commit name => s.inTransaction name fun c =>
    (.done, ⟨c.commit, s.live.erase name⟩)
  | .rollback name => s.inTransaction name fun _ =>
    (.done, { s with live := s.live.erase name })

/-- Carries out operations in order. -/
def run (s : OpenStore) : List StoreOperation → List StoreAnswer × OpenStore
  | [] => ([], s)
  | op :: ops =>
    let (a, s) := s.step op
    let (as, s) := s.run ops
    (a :: as, s)

end OpenStore

end LedgerHistory
