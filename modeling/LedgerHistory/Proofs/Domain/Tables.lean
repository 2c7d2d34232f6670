import Mathlib.Data.List.Flatten
import Mathlib.Data.List.Nodup
import LedgerHistory.Recording

/-!
# The tables of the domains

No two domains write to one table, and every table has its id in front (`DomainName.tables_ok`). A
recorder writes to the tables of its domain, in their order (`Recorder.tables_batches`).
-/

namespace LedgerHistory

/-- The tables that a domain writes to. -/
def DomainName.tables (d : DomainName) : List Table := (Recorder.new 0 d).tables

/-- The tables of the enabled domains. -/
def DomainSwitches.tables (t : DomainSwitches) : List Table := t.enabled.flatMap DomainName.tables

theorem DomainName.nodup_all : DomainName.all.Nodup := by decide

theorem DomainSwitches.nodup_enabled (t : DomainSwitches) : t.enabled.Nodup :=
  DomainName.nodup_all.filter _

theorem DomainName.nodup_tables : ((all.flatMap tables).map (·.name)).Nodup := by decide

theorem DomainSwitches.nodup_tables (t : DomainSwitches) : (t.tables.map (·.name)).Nodup :=
  DomainName.nodup_tables.sublist (((List.filter_sublist (p := _)).flatMap _).map _)

/-- Every table is small enough to be written, and has its id in front. -/
theorem DomainName.tables_ok :
    ∀ d : DomainName, ∀ t ∈ d.tables, t.arity < 0x8000 ∧ t.positionOf idColumn = .ok 0 := by
  intro d
  cases d <;> decide

theorem DomainSwitches.mem_tables {s : DomainSwitches} {t : Table} (h : t ∈ s.tables) :
    ∃ d ∈ s.enabled, t ∈ d.tables := List.mem_flatMap.1 h

theorem DomainSwitches.tables_ok {s : DomainSwitches} {t : Table} (h : t ∈ s.tables) :
    t.arity < 0x8000 ∧ t.positionOf idColumn = .ok 0 := by
  obtain ⟨d, _, ht⟩ := DomainSwitches.mem_tables h
  exact d.tables_ok t ht

/-- No sequence of a table is the one that numbers the entities. -/
theorem DomainName.sequenceName_ne : ∀ d : DomainName, ∀ t ∈ d.tables,
    t.sequenceName ≠ entitySequence := by
  intro d
  cases d <;> decide

namespace Recorder

theorem tables_eq (p : Recorder) : p.tables = p.domain.tables := by
  rcases p with ⟨k, p⟩ | ⟨k, p⟩ <;> cases k <;> rfl

theorem tables_batches (p : Recorder) : p.batches.map (·.table) = p.tables := by
  rcases p with ⟨k, p⟩ | ⟨k, p⟩ <;> cases k <;> rfl

theorem flatMap_tables {rs : List Recorder} {ds : List DomainName} (h : rs.map (·.domain) = ds) :
    rs.flatMap tables = ds.flatMap DomainName.tables := by
  subst h
  rw [List.flatMap_map]
  exact List.flatMap_congr fun p _ => p.tables_eq

theorem flatMap_batches {rs : List Recorder} {ds : List DomainName} (h : rs.map (·.domain) = ds) :
    (rs.flatMap batches).map (·.table) = ds.flatMap DomainName.tables := by
  rw [List.map_flatMap, ← flatMap_tables h]
  exact List.flatMap_congr fun p _ => p.tables_batches

end Recorder

theorem Configuration.domains_recorders (c : Configuration) :
    c.recorders.map (·.domain) = c.domains.enabled := by
  rw [Configuration.recorders, List.map_map]
  refine (List.map_congr_left fun d _ => ?_).trans (List.map_id _)
  exact Recorder.domain_new _ d

end LedgerHistory
