import LedgerHistory.Dictionary

/-!
# Grouping in order of arrival

A grouping holds one value per key and lists the keys in the order in which they first came. An index
leads from a key to the place of its entry.
-/

namespace LedgerHistory

/-- Values grouped under keys: the entries in order of first arrival, and the place of each key. -/
structure Grouping (κ ν : Type) where
  index : Dictionary κ Nat := .empty
  entries : List (κ × ν) := []

namespace Grouping

variable {κ ν : Type} [DecidableEq κ]

/-- A grouping without keys. -/
def empty : Grouping κ ν := {}

/-- The place of a key, at the end with the value `create` if the key is new. -/
def place (t : Grouping κ ν) (k : κ) (create : ν) : Nat × Grouping κ ν :=
  match t.index.get? k with
  | some i => (i, t)
  | none =>
    let i := t.entries.length
    (i, ⟨t.index.insert k i, t.entries ++ [(k, create)]⟩)

/-- Changes the value of a key, which is `create` if the key is new. -/
def update (t : Grouping κ ν) (k : κ) (create : ν) (f : ν → ν) : Grouping κ ν :=
  let (i, t) := t.place k create
  { t with entries := t.entries.modify i fun e => (e.1, f e.2) }

/-- The value of a key. -/
def get? (t : Grouping κ ν) (k : κ) : Option ν :=
  (t.index.get? k).bind fun i => t.entries[i]?.map (·.2)

/-- The keys in order of first arrival. -/
def keys (t : Grouping κ ν) : List κ := t.entries.map (·.1)

def size (t : Grouping κ ν) : Nat := t.entries.length

def isEmpty (t : Grouping κ ν) : Bool := t.entries.isEmpty

end Grouping

end LedgerHistory
