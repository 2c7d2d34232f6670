import LedgerHistory.Proofs.Transactions.Isolation

/-!
# The keys of tables

The ids in use of a table stand beside its rows, and a batch is checked against them and against itself
before any of it is appended. So they stay the ids of the rows, in the committed state and in the copy of
each transaction, a batch is taken just if its rows have new and distinct ids, and one that is refused
changes no table (`OpenStore.loadsByKey`).
-/

namespace LedgerHistory

namespace TableContents

/-- Whether the ids in use are those of the rows in a column, and distinct. -/
structure KeyedBy (c : TableContents) (i : Nat) : Prop where
  ids : c.rows.map (Row.at · i) = c.ids.map .int8
  nodup : c.ids.Nodup

/-- Whether each row of a batch has an id, which no other row has, neither of the batch nor of the
table. -/
def Admits (c : TableContents) (i : Nat) (rows : List Row) : Prop :=
  (∀ row ∈ rows, ∃ id, Row.at row i = .int8 id) ∧ ((c.rows ++ rows).map (Row.at · i)).Nodup

variable {c : TableContents} {i : Nat} {rows : List Row}

theorem keyedBy_empty (i : Nat) : KeyedBy {} i := ⟨rfl, List.nodup_nil⟩

theorem exists_ids_iff : (∃ ids : List Int64, rows.map (Row.at · i) = ids.map .int8)
    ↔ ∀ row ∈ rows, ∃ id, Row.at row i = .int8 id := by
  induction rows with
  | nil => simp
  | cons row rows ih =>
    rw [List.forall_mem_cons, ← ih]
    constructor
    · rintro ⟨ids, h⟩
      obtain ⟨id, ids, rfl, hid, hids⟩ := List.map_eq_cons_iff.1 h.symm
      exact ⟨⟨id, hid.symm⟩, ids, hids.symm⟩
    · rintro ⟨⟨id, hid⟩, ids, hids⟩
      exact ⟨id :: ids, by simp [hid, hids]⟩

/-- The check against the ids in use is one against the rows. -/
theorem KeyedBy.admits_iff (h : c.KeyedBy i) : c.Admits i rows ↔
    ∃ ids : List Int64, rows.map (Row.at · i) = ids.map .int8 ∧ (c.ids ++ ids).Nodup := by
  have hinj : Function.Injective ColumnValue.int8 := fun _ _ => ColumnValue.int8.inj
  unfold Admits
  rw [← exists_ids_iff, List.map_append, h.ids]
  constructor
  · rintro ⟨⟨ids, hids⟩, hnodup⟩
    rw [hids, ← List.map_append, List.nodup_map_iff hinj] at hnodup
    exact ⟨ids, hids, hnodup⟩
  · rintro ⟨ids, hids, hnodup⟩
    refine ⟨⟨ids, hids⟩, ?_⟩
    rwa [hids, ← List.map_append, List.nodup_map_iff hinj]

theorem KeyedBy.append (h : c.KeyedBy i) {ids : List Int64}
    (hids : rows.map (Row.at · i) = ids.map .int8) (hnodup : (c.ids ++ ids).Nodup) :
    KeyedBy ⟨c.rows ++ rows, c.ids ++ ids⟩ i :=
  ⟨by rw [List.map_append, List.map_append, h.ids, hids], hnodup⟩

end TableContents

namespace Snapshot

variable {s s' : Snapshot} {t : Table} {i : Nat} {rows : List Row}

/-- Whether two states have the same tables, by their rows and ids. -/
def SameTables (s s' : Snapshot) : Prop := ∀ name, s'.table name = s.table name

/-- Whether a state differs from another one in that rows were appended to a table. -/
structure Gains (s : Snapshot) (name : String) (rows : List Row) (s' : Snapshot) : Prop where
  rows : s'.rows name = s.rows name ++ rows
  others {other : String} (h : other ≠ name) : s'.table other = s.table other

theorem SameTables.of_sameContents (h : s'.SameContents s) : s.SameTables s' := fun name => by
  rw [table, table, h.1]

theorem checkIds_eq_ok_iff_nodup {used ids : List Int64} (h : used.Nodup) :
    checkIds t i used [] rows = .ok ids ↔
      rows.map (Row.at · i) = ids.map .int8 ∧ (used ++ ids).Nodup := by
  rw [checkIds_eq_ok, List.nodup_append']
  refine and_congr_right fun _ => ⟨fun ⟨hn, hnew⟩ => ⟨h, hn, ?_⟩, fun ⟨_, hn, hnew⟩ => ⟨hn, ?_⟩⟩
  · exact fun id hused hid => (hnew id hid).1 hused
  · exact fun id hid => ⟨fun hused => hnew hused hid, List.not_mem_nil⟩

/-- A batch has new and distinct ids and is appended as a whole, or it has not and no table changes. -/
theorem appendRows_cases (hid : t.positionOf idColumn = .ok i) (hs : (s.table t.name).KeyedBy i)
    (rows : List Row) :
    ((s.table t.name).Admits i rows ∧ (s.appendRows t rows).2 = .ok rows.length
      ∧ s.Gains t.name rows (s.appendRows t rows).1 ∧ ((s.appendRows t rows).1.table t.name).KeyedBy i)
    ∨ ¬(s.table t.name).Admits i rows ∧ (∃ e, (s.appendRows t rows).2 = .error e)
      ∧ s.SameTables (s.appendRows t rows).1 := by
  have hadmits : (s.table t.name).Admits i rows
      ↔ ∃ ids, checkIds t i (s.table t.name).ids [] rows = .ok ids := by
    rw [hs.admits_iff]
    exact exists_congr fun ids => (checkIds_eq_ok_iff_nodup hs.nodup).symm
  rcases hc : checkIds t i (s.table t.name).ids [] rows with e | ids
  · right
    have hrefused : s.appendRows t rows
        = ({ s with tables := s.tables.insert t.name (s.table t.name) }, .error e) := by
      simp only [appendRows, hid, hc]
    rw [hadmits, hc, hrefused]
    refine ⟨by simp, ⟨e, rfl⟩, fun name => ?_⟩
    rw [table_insert]
    split
    · rename_i hname
      rw [hname]
    · rfl
  · left
    obtain ⟨hids, hnodup⟩ := (checkIds_eq_ok_iff_nodup hs.nodup).1 hc
    let longer : TableContents := ⟨(s.table t.name).rows ++ rows, (s.table t.name).ids ++ ids⟩
    have htaken : s.appendRows t rows
        = ({ s with tables := s.tables.insert t.name longer }, .ok rows.length) := by
      simp only [appendRows, hid, hc, longer]
    rw [hadmits, hc, htaken]
    refine ⟨⟨ids, rfl⟩, rfl, ⟨?_, fun hother => ?_⟩, ?_⟩
    · rw [Snapshot.rows, table_insert, if_pos rfl]
      rfl
    · rw [table_insert, if_neg hother.symm]
    · rw [table_insert, if_pos rfl]
      exact hs.append hids hnodup

/-- A batch for another table changes nothing of a table. -/
theorem table_appendRows_of_ne {name : String} (h : t.name ≠ name) :
    (s.appendRows t rows).1.table name = s.table name := by
  unfold appendRows
  split
  · rfl
  · dsimp only
    split
    · rw [table_insert, if_neg h]
    · rw [table_insert, if_neg h]

theorem keyedBy_appendRows {t' : Table} (hid : t.positionOf idColumn = .ok i)
    (ht' : t'.name = t.name → t' = t) (hs : (s.table t.name).KeyedBy i) (rows : List Row) :
    ((s.appendRows t' rows).1.table t.name).KeyedBy i := by
  by_cases hname : t'.name = t.name
  · obtain rfl := ht' hname
    obtain ⟨-, -, -, hkeyed⟩ | ⟨-, -, hsame⟩ := appendRows_cases hid hs rows
    · exact hkeyed
    · rwa [hsame]
  · rwa [table_appendRows_of_ne hname]

end Snapshot

/-- A load fails as it was asked to, as its stream cannot be read, or as its rows are refused. -/
theorem Connection.bulkLoad_cases (c : Connection) (t : Table) (stream : List UInt8) :
    ((c.store.failNextCopy = true ∨ ∀ rows, t.decodeStream stream ≠ .ok rows)
      ∧ (∃ e, (c.bulkLoad t stream).1 = .error e)
      ∧ (c.bulkLoad t stream).2.transaction.working = c.transaction.working)
    ∨ c.store.failNextCopy = false ∧ ∃ rows, t.decodeStream stream = .ok rows
      ∧ (c.bulkLoad t stream).1 = (c.transaction.working.appendRows t rows).2
      ∧ (c.bulkLoad t stream).2.transaction.working = (c.transaction.working.appendRows t rows).1 := by
  unfold bulkLoad
  split
  · exact .inl ⟨.inl ‹_›, ⟨_, rfl⟩, rfl⟩
  · rename_i hcalm
    rcases t.decodeStream stream with e | rows
    · exact .inl ⟨.inr nofun, ⟨e, rfl⟩, rfl⟩
    · exact .inr ⟨by simpa using hcalm, rows, rfl, rfl, rfl⟩

/-- The table that an operation puts rows into. -/
def StoreOperation.table? : StoreOperation → Option Table
  | .seed t _ | .copy _ t _ => some t
  | _ => none

namespace OpenStore

variable {s : OpenStore} {op : StoreOperation} {t : Table} {i : Nat}

/-- Whether a state is the committed one or the copy of a transaction. -/
def IsState (s : OpenStore) (k : Snapshot) : Prop :=
  k = s.store.committed ∨ ∃ name u, s.live.get? name = some u ∧ k = u.working

/-- Whether a table has the ids of its rows in every state. -/
def KeyedIn (s : OpenStore) (name : String) (i : Nat) : Prop :=
  ∀ k, s.IsState k → (k.table name).KeyedBy i

theorem KeyedIn.committed_step (h : s.KeyedIn t.name i) (hid : t.positionOf idColumn = .ok i)
    (hop : ∀ t' ∈ op.table?, t'.name = t.name → t' = t) :
    ((s.step op).2.store.committed.table t.name).KeyedBy i := by
  have hcommitted := h _ (.inl rfl)
  rcases hp : op.publishes with _ | _
  · rwa [Snapshot.SameTables.of_sameContents (sameContents_step hp)]
  obtain ⟨t', rows, rfl⟩ | ⟨e, rfl⟩ | ⟨name, rfl⟩ := StoreOperation.eq_of_publishes hp
  · exact Snapshot.keyedBy_appendRows hid (hop t' rfl) hcommitted rows
  · exact hcommitted
  · rcases hu : s.live.get? name with _ | u
    · rwa [step_of_none hu rfl (by simp)]
    · rw [step_commit hu, Snapshot.SameTables.of_sameContents (Connection.sameContents_commit _)]
      exact h _ (.inr ⟨name, u, hu, rfl⟩)

theorem KeyedIn.live_step (h : s.KeyedIn t.name i) (hid : t.positionOf idColumn = .ok i)
    (hop : ∀ t' ∈ op.table?, t'.name = t.name → t' = t) {name : String} {u : Transaction}
    (hu : (s.step op).2.live.get? name = some u) : (u.working.table t.name).KeyedBy i := by
  by_cases hbegin : op = .begin name
  · subst hbegin
    rw [live_begin] at hu
    cases hu
    exact h _ (.inl rfl)
  obtain ⟨hopen, v, hv⟩ := live_of_live_step hu hbegin
  have hkeyed := h _ (.inr ⟨name, v, hv, rfl⟩)
  by_cases hown : op.transaction? = some name
  · rw [OpenStore.live_step hv hown hopen] at hu
    cases hu
    obtain ⟨htables, -⟩ | ⟨t', stream, rfl⟩ := tables_act hv hown hopen
    · rwa [Snapshot.table, htables]
    · show ((v.working.act _).table t.name).KeyedBy i
      rw [answer_copy hv, ← (Connection.bulkLoad_eq ⟨s.store, v⟩ name t' stream).2]
      obtain ⟨-, -, hsame⟩ | ⟨-, rows, -, -, happended⟩ :=
        Connection.bulkLoad_cases ⟨s.store, v⟩ t' stream
      · rwa [hsame]
      · rw [happended]
        exact Snapshot.keyedBy_appendRows hid (hop t' rfl) hkeyed rows
  · rw [live_step_of_ne hown, hv] at hu
    cases hu
    exact hkeyed

/-- Ids and rows stay together through an operation, if it knows the table by its one schema. -/
theorem KeyedIn.step (h : s.KeyedIn t.name i) (hid : t.positionOf idColumn = .ok i)
    (hop : ∀ t' ∈ op.table?, t'.name = t.name → t' = t) : (s.step op).2.KeyedIn t.name i := by
  rintro k (rfl | ⟨name, u, hu, rfl⟩)
  · exact h.committed_step hid hop
  · exact h.live_step hid hop hu

theorem KeyedIn.after (h : s.KeyedIn t.name i) (hid : t.positionOf idColumn = .ok i)
    {ops : List StoreOperation} (hops : ∀ op ∈ ops, ∀ t' ∈ op.table?, t'.name = t.name → t' = t) :
    (s.after ops).KeyedIn t.name i := by
  induction ops generalizing s with
  | nil => exact h
  | cons op ops ih =>
    exact ih (h.step hid (hops op List.mem_cons_self)) fun op' hop' =>
      hops op' (List.mem_cons_of_mem _ hop')

/-- What holds of loads into a table with its ids in a column. -/
structure LoadsByKey (s : OpenStore) (t : Table) (i : Nat) : Prop where
  /-- The ids in use are those of the rows and distinct, in the committed state and in each copy. -/
  keyed : s.KeyedIn t.name i
  /-- A stream is loaded, and its rows are counted, if no failure was asked for, it can be read, and the
  ids are new and distinct. -/
  copy_iff {name : String} {u : Transaction} (hu : s.live.get? name = some u) (stream : List UInt8)
    (n : Nat) : (s.step (.copy name t stream)).1 = .count n ↔ s.store.failNextCopy = false
      ∧ ∃ rows, t.decodeStream stream = .ok rows ∧ rows.length = n
        ∧ (u.working.table t.name).Admits i rows
  copied {name : String} {u : Transaction} (hu : s.live.get? name = some u) {stream : List UInt8}
    {n : Nat} (hn : (s.step (.copy name t stream)).1 = .count n) :
    ∃ rows u', t.decodeStream stream = .ok rows
      ∧ (s.step (.copy name t stream)).2.live.get? name = some u'
      ∧ u.working.Gains t.name rows u'.working
  /-- A load that fails, for whatever reason, changes no table. -/
  refused {name : String} {u : Transaction} (hu : s.live.get? name = some u) {stream : List UInt8}
    (hn : ∀ n, (s.step (.copy name t stream)).1 ≠ .count n) :
    (∃ e, (s.step (.copy name t stream)).1 = .error e)
      ∧ ∃ u', (s.step (.copy name t stream)).2.live.get? name = some u'
        ∧ u.working.SameTables u'.working
  /-- A load changes no table of the committed state or of another transaction. -/
  apart (name : String) (stream : List UInt8) :
    s.store.committed.SameTables (s.step (.copy name t stream)).2.store.committed
      ∧ ∀ other, other ≠ name →
        (s.step (.copy name t stream)).2.live.get? other = s.live.get? other
  /-- Rows are put into the committed table on the same condition. -/
  seed_iff (rows : List Row) :
    (s.step (.seed t rows)).1 = .done ↔ (s.store.committed.table t.name).Admits i rows
  seeded {rows : List Row} (h : (s.step (.seed t rows)).1 = .done) :
    s.store.committed.Gains t.name rows (s.step (.seed t rows)).2.store.committed
  unseeded {rows : List Row} (h : (s.step (.seed t rows)).1 ≠ .done) :
    (∃ e, (s.step (.seed t rows)).1 = .error e)
      ∧ s.store.committed.SameTables (s.step (.seed t rows)).2.store.committed
  seed_apart (rows : List Row) (name : String) :
    (s.step (.seed t rows)).2.live.get? name = s.live.get? name

/-- A load answers with the number of its rows, which were appended, or with an error and no table
changed. -/
theorem KeyedIn.copy_cases (h : s.KeyedIn t.name i) (hid : t.positionOf idColumn = .ok i)
    {name : String} {u : Transaction} (hu : s.live.get? name = some u) (stream : List UInt8) :
    ∃ u', (s.step (.copy name t stream)).2.live.get? name = some u' ∧
      ((s.store.failNextCopy = false ∧ ∃ rows, t.decodeStream stream = .ok rows
          ∧ (u.working.table t.name).Admits i rows
          ∧ (s.step (.copy name t stream)).1 = .count rows.length
          ∧ u.working.Gains t.name rows u'.working)
        ∨ (s.store.failNextCopy = true ∨ ∀ rows, t.decodeStream stream = .ok rows →
            ¬(u.working.table t.name).Admits i rows)
          ∧ (∃ e, (s.step (.copy name t stream)).1 = .error e)
          ∧ u.working.SameTables u'.working) := by
  refine ⟨_, OpenStore.live_step hu rfl rfl, ?_⟩
  rw [answer_copy hu, ← (Connection.bulkLoad_eq ⟨s.store, u⟩ name t stream).2]
  obtain ⟨hwhy, ⟨e, he⟩, hsame⟩ | ⟨hcalm, rows, hd, hr, hw⟩ :=
    Connection.bulkLoad_cases ⟨s.store, u⟩ t stream
  · refine .inr ⟨hwhy.imp_right fun hnone rows hd => absurd hd (hnone rows), ⟨e, by rw [he]; rfl⟩, ?_⟩
    rw [hsame]
    exact fun _ => rfl
  · rw [hr, hw]
    obtain ⟨hadmits, hn, hgains, -⟩ | ⟨hadmits, ⟨e, he⟩, hsame⟩ :=
      Snapshot.appendRows_cases hid (h _ (.inr ⟨name, u, hu, rfl⟩)) rows
    · exact .inl ⟨hcalm, rows, hd, hadmits, by rw [hn]; rfl, hgains⟩
    · refine .inr ⟨.inr fun rows' hd' => ?_, ⟨e, by rw [he]; rfl⟩, hsame⟩
      rw [hd] at hd'
      cases hd'
      exact hadmits

/-- Rows are put into a committed table, or refused and no table changed. -/
theorem KeyedIn.seed_cases (h : s.KeyedIn t.name i) (hid : t.positionOf idColumn = .ok i)
    (rows : List Row) :
    ((s.store.committed.table t.name).Admits i rows ∧ (s.step (.seed t rows)).1 = .done
        ∧ s.store.committed.Gains t.name rows (s.step (.seed t rows)).2.store.committed)
      ∨ ¬(s.store.committed.table t.name).Admits i rows
        ∧ (∃ e, (s.step (.seed t rows)).1 = .error e)
        ∧ s.store.committed.SameTables (s.step (.seed t rows)).2.store.committed := by
  have hanswer : (s.step (.seed t rows)).1
      = .ofExcept (fun _ => .done) (s.store.committed.appendRows t rows).2 := rfl
  rw [hanswer]
  obtain ⟨hadmits, hn, hgains, -⟩ | ⟨hadmits, ⟨e, he⟩, hsame⟩ :=
    Snapshot.appendRows_cases hid (h _ (.inl rfl)) rows
  · exact .inl ⟨hadmits, by rw [hn]; rfl, hgains⟩
  · exact .inr ⟨hadmits, ⟨e, by rw [he]; rfl⟩, hsame⟩

theorem keyedIn_empty (name : String) (i : Nat) : KeyedIn {} name i := by
  rintro k (rfl | ⟨name, u, hu, -⟩)
  · exact TableContents.keyedBy_empty i
  · cases hu

/-- Where the table has the ids of its rows, loads go by them. -/
theorem KeyedIn.loads (h : s.KeyedIn t.name i) (hid : t.positionOf idColumn = .ok i) :
    s.LoadsByKey t i where
  keyed := h
  copy_iff hu stream n := by
    obtain ⟨-, -, ⟨hcalm, rows, hd, hadmits, hn, -⟩ | ⟨hwhy, ⟨e, he⟩, -⟩⟩ := h.copy_cases hid hu stream
    · rw [hn]
      constructor
      · intro hcount
        cases hcount
        exact ⟨hcalm, rows, hd, rfl, hadmits⟩
      · rintro ⟨-, rows', hd', rfl, -⟩
        rw [hd] at hd'
        cases hd'
        rfl
    · rw [he]
      refine ⟨nofun, ?_⟩
      rintro ⟨hcalm, rows, hd, -, hadmits⟩
      rcases hwhy with hfail | hwhy
      · rw [hcalm] at hfail
        cases hfail
      · exact absurd hadmits (hwhy rows hd)
  copied hu stream n hn := by
    obtain ⟨u', hu', ⟨-, rows, hd, -, -, hgains⟩ | ⟨-, ⟨e, he⟩, -⟩⟩ := h.copy_cases hid hu stream
    · exact ⟨rows, u', hd, hu', hgains⟩
    · rw [he] at hn
      cases hn
  refused hu stream hn := by
    obtain ⟨u', hu', ⟨-, rows, -, -, hcount, -⟩ | ⟨-, he, hsame⟩⟩ := h.copy_cases hid hu stream
    · exact absurd hcount (hn _)
    · exact ⟨he, u', hu', hsame⟩
  apart name stream := by
    refine ⟨.of_sameContents (sameContents_step rfl), fun other hother => live_step_of_ne fun he => ?_⟩
    exact hother (Option.some.inj he).symm
  seed_iff rows := by
    obtain ⟨hadmits, hdone, -⟩ | ⟨hadmits, ⟨e, he⟩, -⟩ := h.seed_cases hid rows
    · exact iff_of_true hdone hadmits
    · exact iff_of_false (by rw [he]; exact nofun) hadmits
  seeded {rows} hdone := by
    obtain ⟨-, -, hgains⟩ | ⟨-, ⟨e, he⟩, -⟩ := h.seed_cases hid rows
    · exact hgains
    · rw [he] at hdone
      cases hdone
  unseeded {rows} hrefused := by
    obtain ⟨-, hdone, -⟩ | ⟨-, he, hsame⟩ := h.seed_cases hid rows
    · exact absurd hdone hrefused
    · exact ⟨he, hsame⟩
  seed_apart _ _ := rfl

/-- Loads into a table keep its ids with its rows, and append all rows or none, in every state that
operations lead to which know the table by its one schema. -/
theorem loadsByKey (hid : t.positionOf idColumn = .ok i) (ops : List StoreOperation)
    (hops : ∀ op ∈ ops, ∀ t' ∈ op.table?, t'.name = t.name → t' = t) :
    (after {} ops).LoadsByKey t i :=
  ((keyedIn_empty t.name i).after hid hops).loads hid

/-- Loads rows of deposit rules with given ids. -/
def copyRules (name : String) (ids : List Int64) : StoreOperation :=
  .copy name DepositRule.table
    ((BulkStream.new DepositRule.table).offerAll (ids.map ruleRow)).1.bytes

/-- A row is put into the table, and a transaction loads another one. -/
def keySample : List StoreOperation :=
  [.seed DepositRule.table [ruleRow 1], .begin "a", copyRules "a" [2]]

/-- New ids are taken; an id that the table has is refused behind one that it has not. -/
theorem loadsByKey_sample :
    (after {} keySample).LoadsByKey DepositRule.table 0
    ∧ ((after {} keySample).step (copyRules "a" [3, 4])).1 = .count 2
    ∧ ((after {} keySample).step (copyRules "a" [3, 1])).1
      = .error (.duplicateKey DepositRule.table.name 1)
    ∧ ((after {} keySample).step (.seed DepositRule.table [ruleRow 2])).1 = .done := by
  refine ⟨loadsByKey (by decide) keySample ?_, by decide +kernel, by decide +kernel,
    by decide +kernel⟩
  intro op hop t' ht' _
  simp only [keySample, List.mem_cons, List.not_mem_nil, or_false] at hop
  obtain rfl | rfl | rfl := hop <;> cases ht' <;> rfl

end OpenStore

end LedgerHistory
