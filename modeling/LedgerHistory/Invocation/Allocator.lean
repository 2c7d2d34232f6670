import LedgerHistory.Dictionary
import LedgerHistory.Invocation.Script

/-!
# Allocating ids

An invocation takes one value of each table's sequence from the store and counts on from it. At the
end it records the last id of each table that received any.
-/

namespace LedgerHistory

/-- The ids of one table: the first one and the next one to issue. -/
structure Counter where
  table : Table
  start : Int64
  next : Int64

/-- The ids issued so far. -/
def Counter.issued (c : Counter) : Int64 := c.next - c.start

/-- The counters of an invocation, by table. -/
structure Allocator where
  counters : Dictionary String Counter := .empty

namespace Allocator

/-- Counters that start at given values. -/
def ofValues (values : List (Table × Int64)) : Allocator :=
  ⟨values.foldl (fun d (t, start) => d.insert t.name ⟨t, start, start⟩) .empty⟩

/-- The tables without those whose name came before. -/
def distinctTables (tables : List Table) : List Table :=
  tables.foldl (fun ts t => if ts.any (·.name = t.name) then ts else ts ++ [t]) []

/-- Starts a counter for each table from its sequence. -/
def load (tables : List Table) : Action Allocator := do
  let tables := distinctTables tables
  let values ← Action.request .loadSequences (.advanceSequences tables)
  return ofValues (tables.zip values)

def counter (a : Allocator) (t : Table) : Except InvocationError Counter :=
  match a.counters.get? t.name with
  | some c => .ok c
  | none => .error (.unknownSequence t.name)

def next (a : Allocator) (t : Table) : Except InvocationError (Int64 × Allocator) := do
  let c ← a.counter t
  return (c.next, ⟨a.counters.insert t.name { c with next := c.next + 1 }⟩)

/-- The number of ids issued for a table. -/
def issued (a : Allocator) (t : Table) : Except InvocationError Int64 :=
  (a.counter t).map Counter.issued

def totalIssued (a : Allocator) : Int64 :=
  a.counters.values.foldl (fun n c => n + c.issued) 0

/-- The last id of each table that received any, in the order of the tables' names. -/
def lastIssued (a : Allocator) : List (Table × Int64) :=
  ((a.counters.values.filter fun c => c.start < c.next).map fun c => (c.table, c.next - 1)).mergeSort
    fun x y => x.1.name ≤ y.1.name

/-- Records the last ids in the store. -/
def save (a : Allocator) : Action Unit :=
  match a.lastIssued with
  | [] => return ()
  | values => Action.request .persistSequences (.raiseSequences values)

end Allocator

end LedgerHistory
