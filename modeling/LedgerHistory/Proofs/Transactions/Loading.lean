import LedgerHistory.Proofs.Store.Conformance
import LedgerHistory.Proofs.Transactions.Isolation

/-!
# What bulk loads put into tables

Each row of a table that is filled by bulk loads alone stands in a stream that was loaded
(`OpenStore.Keeps.after`). So it has a field for each column, empty or of the column's type, and an id;
whether its other required columns are filled is up to the stream (`OpenStore.loaded_conforms`).
-/

namespace LedgerHistory

def Table.HasId (t : Table) (row : Row) : Prop :=
  ∃ i id, t.positionOf idColumn = .ok i ∧ Row.at row i = .int8 id

/-- A batch that is appended has ids. -/
theorem Snapshot.hasId_of_appendRows {s : Snapshot} {t : Table} {rows : List Row} {n : Nat}
    (h : (s.appendRows t rows).2 = .ok n) {row : Row} (hrow : row ∈ rows) : t.HasId row := by
  rcases hpos : t.positionOf idColumn with e | i
  · simp [appendRows, hpos] at h
  · rcases hids : checkIds t i (s.table t.name).ids [] rows with e | ids
    · simp [appendRows, hpos, hids] at h
    · obtain ⟨hmap, -, -⟩ := checkIds_eq_ok.1 hids
      have hat : Row.at row i ∈ ids.map ColumnValue.int8 := hmap ▸ List.mem_map_of_mem hrow
      obtain ⟨id, -, hid⟩ := List.mem_map.1 hat
      exact ⟨i, id, hpos, hid.symm⟩

/-- The rows that are loaded stand in the stream and have ids. -/
theorem Connection.mem_loadedBy {c : Connection} {name table : String} {t : Table}
    {stream : List UInt8} {row : Row}
    (h : row ∈ loadedBy table (.copy name t stream, .ofExcept .count (c.bulkLoad t stream).1)) :
    t.name = table ∧ t.HasId row ∧ ∃ rows, t.decodeStream stream = .ok rows ∧ row ∈ rows := by
  unfold bulkLoad at h
  split at h
  · cases h
  · rcases hd : t.decodeStream stream with e | rows
    · rw [hd] at h
      cases h
    · rw [hd] at h
      dsimp only at h
      rcases hr : (c.transaction.working.appendRows t rows).2 with e | n
      · rw [hr] at h
        cases h
      · rw [hr, StoreAnswer.ofExcept, loadedBy, hd] at h
        split at h
        · rename_i hname
          exact ⟨hname, Snapshot.hasId_of_appendRows hr h, rows, rfl, h⟩
        · cases h

namespace OpenStore

variable {s : OpenStore} {p : String → Row → Prop} {op : StoreOperation}

/-- Whether each row, committed or in the copy of a transaction, has a property together with the name
of its table. -/
structure Keeps (s : OpenStore) (p : String → Row → Prop) : Prop where
  committed {table : String} {row : Row} (h : row ∈ s.store.committed.rows table) : p table row
  live {name : String} {t : Transaction} (ht : s.live.get? name = some t) {table : String} {row : Row}
    (h : row ∈ t.working.rows table) : p table row

/-- The rows that an operation seeds a table with. -/
def seededBy (table : String) : StoreOperation → List Row
  | .seed t rows => if t.name = table then rows else []
  | _ => []

theorem rows_of_sameContents {s s' : Snapshot} (h : s.SameContents s') (table : String) :
    s.rows table = s'.rows table := by
  rw [Snapshot.rows, Snapshot.table, h.1]
  rfl

/-- The committed rows after an operation were committed before, or stood in a copy, or were seeded. -/
theorem mem_committed_step {table : String} {row : Row}
    (h : row ∈ (s.step op).2.store.committed.rows table) : row ∈ s.store.committed.rows table
      ∨ (∃ name t, s.live.get? name = some t ∧ row ∈ t.working.rows table)
      ∨ row ∈ seededBy table op := by
  rcases hp : op.publishes with _ | _
  · exact .inl (rows_of_sameContents (sameContents_step hp) table ▸ h)
  -- what publishes seeds, registers or commits, and a registration leaves the rows alone
  obtain ⟨t, rows, rfl⟩ | ⟨e, rfl⟩ | ⟨name, rfl⟩ := StoreOperation.eq_of_publishes hp
  · have hseed : (s.step (.seed t rows)).2.store.committed.rows table = s.store.committed.rows table
        ++ if (s.store.committed.appendRows t rows).2.isOk ∧ t.name = table then rows else [] :=
      s.store.committed.rows_appendRows t rows table
    rw [hseed] at h
    rcases List.mem_append.1 h with h | h
    · exact .inl h
    · split at h
      · rename_i hname
        exact .inr (.inr (by rwa [seededBy, if_pos hname.2]))
      · cases h
  · exact .inl h
  · rcases ht : s.live.get? name with _ | t
    · rw [step_of_none ht rfl (by simp)] at h
      exact .inl h
    · rw [step_commit ht] at h
      have hrows : (Connection.commit ⟨s.store, t⟩).committed.rows table = t.working.rows table :=
        rows_of_sameContents (Connection.sameContents_commit _) table
      exact .inr (.inl ⟨name, t, ht, hrows ▸ h⟩)

/-- The rows of a copy after an operation stood there before, or were committed, or were loaded. -/
theorem mem_live_step {name table : String} {t : Transaction} {row : Row}
    (ht : (s.step op).2.live.get? name = some t) (h : row ∈ t.working.rows table) :
    row ∈ s.store.committed.rows table
      ∨ (∃ t', s.live.get? name = some t' ∧ row ∈ t'.working.rows table)
      ∨ row ∈ loadedBy table (op, (s.step op).1) := by
  by_cases hbegin : op = .begin name
  · subst hbegin
    rw [live_begin] at ht
    cases ht
    exact .inl h
  obtain ⟨hopen, t', ht'⟩ := live_of_live_step ht hbegin
  by_cases hop : op.transaction? = some name
  · rw [live_step ht' hop hopen] at ht
    cases ht
    rw [rows_act ht' hop hopen] at h
    rcases List.mem_append.1 h with h | h
    · exact .inr (.inl ⟨t', ht', h⟩)
    · exact .inr (.inr h)
  · rw [live_step_of_ne hop] at ht
    exact .inr (.inl ⟨t, ht, h⟩)

/-- An operation keeps what the rows have that it seeds or loads. -/
theorem Keeps.step (h : s.Keeps p) (hseed : ∀ table, ∀ row ∈ seededBy table op, p table row)
    (hload : ∀ table, ∀ row ∈ loadedBy table (op, (s.step op).1), p table row) :
    (s.step op).2.Keeps p where
  committed hrow := by
    obtain hrow | ⟨_, _, ht, hrow⟩ | hrow := mem_committed_step hrow
    · exact h.committed hrow
    · exact h.live ht hrow
    · exact hseed _ _ hrow
  live ht _ _ hrow := by
    obtain hrow | ⟨_, ht', hrow⟩ | hrow := mem_live_step ht hrow
    · exact h.committed hrow
    · exact h.live ht' hrow
    · exact hload _ _ hrow

/-- Operations keep what the rows have that they seed, and those of streams that they load. -/
theorem Keeps.after (h : s.Keeps p) {ops : List StoreOperation}
    (hseed : ∀ op ∈ ops, ∀ table, ∀ row ∈ seededBy table op, p table row)
    (hload : ∀ name t stream rows, .copy name t stream ∈ ops → t.decodeStream stream = .ok rows →
      ∀ row ∈ rows, t.HasId row → p t.name row) : (s.after ops).Keeps p := by
  induction ops generalizing s with
  | nil => exact h
  | cons op ops ih =>
    rw [after_cons]
    refine ih (h.step (hseed op List.mem_cons_self) fun table row hrow => ?_)
      (fun op' hop' => hseed op' (List.mem_cons_of_mem _ hop'))
      fun name t stream rows hop => hload name t stream rows (List.mem_cons_of_mem _ hop)
    cases op with
    | copy name t stream =>
      rcases ht : s.live.get? name with _ | u
      · rw [step_of_none ht rfl (by simp)] at hrow
        cases hrow
      · rw [answer_copy ht] at hrow
        obtain ⟨rfl, hid, rows, hd, hrow⟩ := Connection.mem_loadedBy hrow
        exact hload name t stream rows List.mem_cons_self hd row hrow hid
    | _ => cases hrow

/-- Whether the rows of a table come from bulk loads alone, and always under its schema. -/
structure LoadsOnly (t : Table) (ops : List StoreOperation) : Prop where
  unseeded {t' : Table} {rows : List Row} (h : .seed t' rows ∈ ops) : t'.name ≠ t.name
  schema {name : String} {t' : Table} {stream : List UInt8} (h : .copy name t' stream ∈ ops)
    (hname : t'.name = t.name) : t' = t

/-- A row that is read from a stream has a field for each column, empty or of the column's type, and is
taken in writing just if no required column is empty and no document is too long. A committed row of a
table that is filled by bulk loads stands in a stream that was loaded, and has an id. -/
theorem loaded_conforms (t : Table) :
    (∀ stream rows, t.decodeStream stream = .ok rows → ∀ row ∈ rows, t.Holds row
      ∧ ((∃ w, (BulkStream.new t).write row = .ok w) ↔ t.Filled row ∧ row.HasShortDocuments))
    ∧ ∀ ops, LoadsOnly t ops → ∀ row ∈ (after {} ops).store.rows t.name, t.Holds row ∧ t.HasId row
      ∧ ∃ name stream rows, .copy name t stream ∈ ops ∧ t.decodeStream stream = .ok rows
        ∧ row ∈ rows := by
  constructor
  · intro stream rows h row hrow
    refine ⟨Table.holds_of_decodeStream h hrow, ?_⟩
    rw [← Table.accepts_iff_of_decodeStream h hrow, ← Table.encodeRow_isOk_iff]
    constructor
    · rintro ⟨w, hw⟩
      obtain ⟨tuple, htuple, -⟩ := map_eq_ok.1 hw
      exact ⟨tuple, htuple⟩
    · rintro ⟨tuple, htuple⟩
      exact ⟨_, map_eq_ok.2 ⟨tuple, htuple, rfl⟩⟩
  · intro ops hops row hstored
    have hempty : (OpenStore.mk {} .empty).Keeps fun table row => table = t.name → t.Holds row
        ∧ t.HasId row ∧ ∃ name stream rows, .copy name t stream ∈ ops
          ∧ t.decodeStream stream = .ok rows ∧ row ∈ rows := ⟨nofun, nofun⟩
    have hkeeps := hempty.after (fun op (hop : op ∈ ops) table row hrow hname => ?_)
      fun name t' stream rows hop hd row hrow hid hname => ?_
    · exact hkeeps.committed hstored rfl
    · cases op with
      | seed t' rows =>
        rw [seededBy, if_neg (hname ▸ hops.unseeded hop)] at hrow
        cases hrow
      | _ => cases hrow
    · obtain rfl := hops.schema hop hname
      exact ⟨Table.holds_of_decodeStream hd hrow, hid, name, stream, rows, hop, hd, hrow⟩

/-- A row of a deposit rule without the rule. -/
def rulelessRow : Row := [.int8 1, .int8 1, .int8 1, .null]

/-- The stream of that row. -/
def rulelessStream : List UInt8 :=
  Copy.header ++ Bytes.ofInt16 4 ++ Copy.framed (Bytes.ofInt64 1) ++ Copy.framed (Bytes.ofInt64 1)
    ++ Copy.framed (Bytes.ofInt64 1) ++ Bytes.ofInt32 Copy.nullLength ++ Copy.trailer

/-- Loads that row and commits it. -/
def rulelessLoad : List StoreOperation :=
  [.begin "a", .copy "a" DepositRule.table rulelessStream, .commit "a"]

theorem loadsOnly_rulelessLoad : LoadsOnly DepositRule.table rulelessLoad where
  unseeded h := by simp [rulelessLoad] at h
  schema h _ := by
    simp only [rulelessLoad, List.mem_cons, reduceCtorEq, StoreOperation.copy.injEq, false_or,
      List.not_mem_nil, or_false] at h
    exact h.2.1

theorem loaded_conforms_sample :
    DepositRule.table.decodeStream rulelessStream = .ok [rulelessRow]
    ∧ (after {} rulelessLoad).store.rows DepositRule.table.name = [rulelessRow]
    ∧ DepositRule.table.Holds rulelessRow ∧ DepositRule.table.HasId rulelessRow := by
  have hrows : (after {} rulelessLoad).store.rows DepositRule.table.name = [rulelessRow] := by
    decide +kernel
  obtain ⟨hholds, hid, -⟩ := (loaded_conforms DepositRule.table).2 rulelessLoad loadsOnly_rulelessLoad
    rulelessRow (hrows ▸ List.mem_singleton_self _)
  exact ⟨by decide +kernel, hrows, hholds, hid⟩

/-- It is not so that each row that is read would be taken in writing, nor that no committed row is empty
in a required column: the rule may be missing. -/
theorem not_forall_filled :
    (¬∀ (t : Table) (stream : List UInt8) (rows : List Row), t.decodeStream stream = .ok rows →
      ∀ row ∈ rows, ∃ w, (BulkStream.new t).write row = .ok w)
    ∧ ¬∀ (t : Table) (ops : List StoreOperation), LoadsOnly t ops →
      ∀ row ∈ (after {} ops).store.rows t.name, t.Filled row := by
  constructor
  · intro hall
    obtain ⟨w, hw⟩ := hall DepositRule.table rulelessStream [rulelessRow] (by decide +kernel) rulelessRow
      (List.mem_singleton_self _)
    obtain ⟨tuple, htuple, -⟩ := map_eq_ok.1 hw
    exact absurd (Table.encodeRow_isOk_iff.1 ⟨tuple, htuple⟩) (by decide +kernel)
  · intro hall
    have hrows : (after {} rulelessLoad).store.rows DepositRule.table.name = [rulelessRow] := by
      decide +kernel
    have hfilled : List.Forall₂ (fun c v => v = .null → c.nullable) DepositRule.table.columns
        rulelessRow := hall _ _ loadsOnly_rulelessLoad rulelessRow
      (hrows ▸ List.mem_singleton_self _)
    exact absurd hfilled (by decide +kernel)

end OpenStore

end LedgerHistory
