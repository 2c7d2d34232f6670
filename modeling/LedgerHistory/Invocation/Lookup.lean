import LedgerHistory.Dictionary
import LedgerHistory.Invocation.Script

/-!
# Loading prior rows

A lookup says how to ask a table for the most recent row of a key, and how to read the answer.
-/

namespace LedgerHistory

/-- How to look up values of a type by keys of another. -/
structure LatestLookup (κ α : Type) where
  table : Table
  keyColumns : List String
  keyValues : κ → Row
  decode : Row → Except StoreError (κ × α)

namespace LatestLookup

variable {κ α : Type} [DecidableEq κ]

/-- The keys without repetitions, each in its first place. -/
def distinctKeys (keys : List κ) : List κ :=
  keys.foldl (fun ks k => if k ∈ ks then ks else ks ++ [k]) []

/-- The query for keys up to a state version. -/
def query (l : LatestLookup κ α) (keys : List κ) (bound : Option Int64) : LatestQuery :=
  ⟨l.table, l.keyColumns, keys.map l.keyValues, bound⟩

/-- The values of the most recent rows of the keys. Without keys the store is not asked. -/
def load (l : LatestLookup κ α) (keys : List κ) (bound : Option Int64) :
    Action (Dictionary κ α) :=
  match distinctKeys keys with
  | [] => return .empty
  | keys => do
    let rows ← Action.request .loadPriorState (.latest (l.query keys bound))
    let found ← Action.ofExcept ((rows.mapM l.decode).mapError (.store .loadPriorState))
    return .ofList found

end LatestLookup

end LedgerHistory
