import LedgerHistory.Proofs.Recording.Arrangement
import LedgerHistory.Proofs.Recording.Stored

/-!
# Every event has its row

An invocation that ends well adds one row for each event of a recorded domain and one aggregate for
each entity and state version that the events of a domain with lists are of, under consecutive ids, and
reports how many (`History.Reaches.accounted`).
-/

namespace LedgerHistory

section Report

variable {n : Nat} {s : Snapshot} {C : Chronicles} {config : Configuration} {x : LedgerExtension}
  {bss : List (List Batch)} {report : InvocationReport} {w' : World}

/-- The number of rows of batches. -/
def totalCount (bs : List Batch) : Nat := (bs.map (·.rows.length)).sum

/-- The tables are reported that rows are written to, with the number of these. -/
theorem report_of_calm (hs : s.Sound n) (hC : s.Recalls C) (hx : x.isEmpty = false)
    (hout : outcomes s C config x = .ok bss)
    (h : (recordExtension config x).calm s.idle = (.ok report, w')) :
    report.rowsWritten.Perm (WriteTally.told bss.flatten)
      ∧ report.idsIssued = Int64.ofNat (totalCount bss.flatten) := by
  have hroute := routable_of_calm hs.addressed hx h
  rw [calm_recordExtension hx, show s.idle.opened = s.idle from rfl] at h
  obtain ⟨known, a, hissued, hstages⟩ := calm_runStages_of_ok hs hC hroute hout
  rw [hstages] at h
  rcases hw : (WriteTally.writeEach {} bss.flatten).run.calm (s.idle.prepared config x)
    with ⟨e | tally, w⟩
  · rw [hw] at h
    cases h
  · rw [hw] at h
    cases h
    constructor
    · have hwritten := WriteTally.written_writeEach (fun b hb => (tables_ok_of_mem hout hb).1)
        (fun b hb => (tables_ok_of_mem hout hb).2) (nodup_outcomes hout) (fun _ _ => List.not_mem_nil) hw
      refine (List.mergeSort_perm _ _).trans ?_
      rw [hwritten]
      exact .refl _
    · refine (Allocator.totalIssued_eq hissued config.domains.nodup_tables).trans ?_
      rw [← tables_outcomes hout, List.map_map, totalCount]
      congr 2
      exact List.map_congr_left fun b hb => rowCount_of_mem (nodup_outcomes hout) hb

end Report

/-! ## How many rows there are -/

section Count

variable {s : Snapshot} {C : Chronicles} {config : Configuration} {x : LedgerExtension}
  {bss : List (List Batch)}

theorem LedgerExtension.length_eventsOf_le (x : LedgerExtension) {ds : List DomainName}
    (hds : ds.Nodup) : (ds.map fun d => (x.eventsOf d).length).sum ≤ x.eventCount := by
  let recorded := x.events.filter fun y => y.2.substate.domain? ∈ ds.map some
  have h : ((ds.map some).flatMap fun d => recorded.filter (·.2.substate.domain? = d)).Perm recorded :=
    perm_flatMap_filter (hds.map fun _ _ => Option.some.inj)
      fun y hy => of_decide_eq_true (List.mem_filter.1 hy).2
  have hparts : ((ds.map some).flatMap fun d => recorded.filter (·.2.substate.domain? = d))
      = ds.flatMap x.eventsOf := by
    rw [List.flatMap_map]
    refine List.flatMap_congr fun d hd => ?_
    rw [List.filter_filter, LedgerExtension.eventsOf]
    refine List.filter_congr fun y _ => ?_
    by_cases hy : y.2.substate.domain? = some d <;> simp [hy, hd]
  have hlen := h.length_eq
  rw [hparts, List.length_flatMap] at hlen
  rw [hlen]
  exact List.length_filter_le ..

theorem ListKind.totalCount_le {k : ListKind} {R B : NewRows k.domain} {start : String → Int64}
    {number : Numbering} (hR : k.made B start number x.events = .ok R) :
    totalCount (k.batchesOf R) ≤ 2 * (x.eventsOf k.domain.name).length := by
  have htells := NewRows.tells_rowsAfter hR
  have he := congrArg List.length htells.entries
  have ha := congrArg List.length htells.aggregates
  have hs := congrArg List.length htells.singletons
  have hle := GroupedChanges.length_toList_add_le (k.visits number x.events)
  have hvisits : (k.visits number x.events).length ≤ (x.eventsOf k.domain.name).length := by
    rw [← visits_eventsOf]
    exact List.length_filterMap_le ..
  have hcount : totalCount (k.batchesOf R)
      ≤ R.entries.length + R.singletons.length + R.aggregates.length := by
    simp only [totalCount, batchesOf, Batch.ofRows, List.map_append, List.sum_append, List.map_cons,
      List.map_nil, List.sum_cons, List.sum_nil, List.length_map]
    rcases k.domain.singletonTable with _ | u
    · simp only [Option.map_none, Option.toList_none, List.map_nil, List.sum_nil]
      omega
    · simp only [Option.map_some, Option.toList_some, List.map_cons, List.map_nil, List.sum_cons,
        List.sum_nil, List.length_map]
      omega
  simp only [List.length_map] at he ha hs
  unfold groups at he ha hs
  omega

theorem DomainName.totalCount_le {d : DomainName} {bs : List Batch} {start : String → Int64}
    {number : Numbering} (h : d.outcome C start number x.events = .ok bs) :
    totalCount bs ≤ 2 * (x.eventsOf d).length := by
  rcases d.eq_name with ⟨k, rfl⟩ | ⟨k, rfl⟩
  · rw [k.outcome_name] at h
    obtain ⟨R, hR, rfl⟩ := map_eq_ok.1 h
    exact ListKind.totalCount_le hR
  · rw [k.outcome_name] at h
    cases h
    have hcount : totalCount (k.batchesOf (k.made start number x.events))
        ≤ (x.eventsOf k.domain.name).length := by
      simp only [totalCount, PlainKind.batchesOf, Batch.ofRows, List.map_cons, List.map_nil,
        List.length_map, List.sum_cons, List.sum_nil, PlainKind.made, length_enumerated,
        PlainKind.changes_arranged]
      rw [← (LedgerExtension.perm_arranged _).length_eq]
      exact List.length_filterMap_le ..
    omega

/-- There are no more than two rows for each event. -/
theorem totalCount_outcomes_le (hout : outcomes s C config x = .ok bss) :
    totalCount bss.flatten ≤ 2 * x.eventCount := by
  have hevents := x.length_eventsOf_le config.domains.nodup_enabled
  have hsum : totalCount bss.flatten
      ≤ 2 * (config.domains.enabled.map fun d => (x.eventsOf d).length).sum := by
    have h := outcomes_eq_ok.1 hout
    clear hout hevents
    generalize config.domains.enabled = ds at h ⊢
    induction h with
    | nil => exact Nat.le_refl 0
    | cons hd _ ih =>
      have hle := DomainName.totalCount_le hd
      rw [totalCount] at hle ih ⊢
      rw [List.flatten_cons, List.map_append, List.sum_append, List.map_cons, List.sum_cons]
      omega
  omega

end Count

/-! ## What is added -/

/-- Whether an invocation, with what it reports, adds to a state the rows of the events that it records,
the aggregates that go with these, and no other rows. -/
structure Snapshot.Accounted (config : Configuration) (x : LedgerExtension) (s : Snapshot)
    (report : InvocationReport) (s' : Snapshot) : Prop where
  /-- The counters of an invocation in this state start at the next values of the sequences. -/
  starts : ∃ a w, (Allocator.load (config.recorders.flatMap Recorder.tables)).run.calm s.idle
      = (.ok a, w)
    ∧ ∀ t ∈ config.domains.tables, (a.counter t).map (·.start) = .ok (s.nextIds t.name)
  known {d : DomainName} (hd : d ∈ config.domains.enabled) : ∀ y ∈ x.eventsOf d,
    ∀ a ∈ y.2.entity :: y.2.substate.mentions, ∃ e, s'.entities.get? a = some e
  complete {d : DomainName} (hd : d ∈ config.domains.enabled) :
    (d.eventTables.flatMap (x.rowEvents d)).Perm (x.eventsOf d)
  events {d : DomainName} (hd : d ∈ config.domains.enabled) {t : Table} (ht : t ∈ d.eventTables) :
    s'.rows t.name = s.rows t.name ++ eventRows s'.number (s.nextIds t.name) (x.rowEvents d t)
  aggregates {k : ListKind} (hk : k.domain.name ∈ config.domains.enabled) : ∃ as : List Aggregate,
    s'.rows k.domain.aggregateSchema.table.name
        = s.rows k.domain.aggregateSchema.table.name ++ as.map k.domain.aggregateRow
      ∧ as.map Aggregate.groupKey = (x.touched k.domain.name).map (groupKeyOf s'.number)
      ∧ as.map (·.id) = idsFrom (s.nextIds k.domain.aggregateSchema.table.name) as.length
  kept {name : String} (he : ∀ d ∈ config.domains.enabled, ∀ t ∈ d.eventTables, t.name ≠ name)
    (ha : ∀ k : ListKind, k.domain.name ∈ config.domains.enabled →
      k.domain.aggregateSchema.table.name ≠ name) : s'.rows name = s.rows name
  written {name : String} {count : Nat} : (name, count) ∈ report.rowsWritten
    ↔ 0 < count ∧ (s'.rows name).length = (s.rows name).length + count
  names : (report.rowsWritten.map (·.1)).Nodup
  idsIssued : report.idsIssued.toInt = report.totalRows
  sequences {name : String} {count : Nat} (h : (name, count) ∈ report.rowsWritten) :
    (s'.sequence (Table.sequenceNameOf name)).toInt = (s.nextIds name).toInt + (count - 1 : Nat)

section Rows

variable {n : Nat} {s s' : Snapshot} {C : Chronicles} {config : Configuration} {x : LedgerExtension}
  {bss : List (List Batch)} {report : InvocationReport} {w' : World}

theorem number_eq_numbering (h : s'.entities = (s.idle.prepared config x).working.entities) :
    s'.number = s.numbering config x := by
  funext a
  show ((s'.entities.get? a).map _).getD default = _
  rw [h]
  rfl

theorem ListKind.eventTables_name (k : ListKind) : k.domain.name.eventTables
    = k.domain.entryTable :: (k.domain.singletonTable.map (·.table)).toList := by
  cases k <;> rfl

theorem PlainKind.eventTables_name (k : PlainKind) : k.domain.name.eventTables = [k.domain.table] := by
  cases k <;> rfl

/-- The tables of a domain have rows of events, or aggregates. -/
theorem DomainName.mem_tables {d : DomainName} {t : Table} (ht : t ∈ d.tables) : t ∈ d.eventTables
    ∨ ∃ k : ListKind, k.domain.name = d ∧ t = k.domain.aggregateSchema.table := by
  rcases d.eq_name with ⟨k, rfl⟩ | ⟨k, rfl⟩
  · rw [k.tables_name, ListDomain.tables, List.mem_append, List.mem_pair] at ht
    rw [k.eventTables_name]
    rcases ht with (rfl | rfl) | ht
    · exact .inl List.mem_cons_self
    · exact .inr ⟨k, rfl, rfl⟩
    · exact .inl (List.mem_cons_of_mem _ ht)
  · rw [k.eventTables_name]
    exact .inl (by cases k <;> exact ht)

variable (hg : s.Gained n config x bss s') (hout : outcomes s C config x = .ok bss)
  (hfree : x.IsFloatFree)

include hg hout hfree

omit hfree in
/-- The aggregates of a recorded domain stand behind the old ones. -/
theorem Snapshot.Gained.rows_aggregates {k : ListKind} (hk : k.domain.name ∈ config.domains.enabled)
    (hn : ∀ y ∈ x.eventsOf k.domain.name, ∀ z ∈ x.eventsOf k.domain.name,
      s.numbering config x y.2.entity = s.numbering config x z.2.entity → y.2.entity = z.2.entity) :
    ∃ as : List Aggregate, s'.rows k.domain.aggregateSchema.table.name
        = s.rows k.domain.aggregateSchema.table.name ++ as.map k.domain.aggregateRow
      ∧ as.map Aggregate.groupKey
        = (x.touched k.domain.name).map (groupKeyOf (s.numbering config x))
      ∧ as.map (·.id) = idsFrom (s.nextIds k.domain.aggregateSchema.table.name) as.length := by
  obtain ⟨bs, hbs, hmade⟩ := exists_outcome hout hk
  rw [k.outcome_name] at hmade
  obtain ⟨R, hR, rfl⟩ := map_eq_ok.1 hmade
  obtain ⟨_, _, hkeys, hids⟩ := ListKind.made_arranged hn hR
  refine ⟨R.aggregates, ?_, hkeys, hids⟩
  refine (hg.rows (List.mem_flatten.2 ⟨_, hbs, k.mem_batchesOf.2 (.inr (.inl rfl))⟩)).trans ?_
  rw [Batch.reread_ofRows (f := id) k.reread_aggregateRow, List.map_id]
  rfl

/-- The events of a recorded domain stand behind the old rows of their tables. -/
theorem Snapshot.Gained.rows_eventTable {d : DomainName} (hd : d ∈ config.domains.enabled)
    (hn : ∀ y ∈ x.eventsOf d, ∀ z ∈ x.eventsOf d,
      s.numbering config x y.2.entity = s.numbering config x z.2.entity → y.2.entity = z.2.entity)
    {t : Table} (ht : t ∈ d.eventTables) : s'.rows t.name = s.rows t.name
      ++ eventRows (s.numbering config x) (s.nextIds t.name) (x.rowEvents d t) := by
  rcases d.eq_name with ⟨k, rfl⟩ | ⟨k, rfl⟩
  · obtain ⟨bs, hbs, hmade⟩ := exists_outcome hout hd
    rw [k.outcome_name] at hmade
    obtain ⟨R, hR, rfl⟩ := map_eq_ok.1 hmade
    obtain ⟨hentries, hsingletons, _⟩ := ListKind.made_arranged hn hR
    have hrow : ∀ b ∈ k.batchesOf R, s'.rows b.table.name = s.rows b.table.name ++ b.reread :=
      fun b hb => hg.rows (List.mem_flatten.2 ⟨_, hbs, hb⟩)
    rw [k.eventTables_name, List.mem_cons, Option.mem_toList, Option.map_eq_some_iff] at ht
    rcases ht with rfl | ⟨u, hu, rfl⟩
    · refine (hrow _ (k.mem_batchesOf.2 (.inl rfl))).trans ?_
      rw [Batch.reread_ofRows k.reread_encodeEntry, hentries, ListKind.reread_entries hfree]
      rfl
    · refine (hrow _ (k.mem_batchesOf.2 (.inr (.inr ⟨u, hu, rfl⟩)))).trans ?_
      rw [Batch.reread_ofRows (ListKind.reread_encodeSingleton hu), hsingletons u hu,
        ListKind.reread_singletons hu hfree]
      rfl
  · rw [k.eventTables_name, List.mem_singleton] at ht
    subst ht
    rw [hg.plain hout hd, PlainKind.reread_made hfree]

omit hfree

/-- A table grows by the rows of its batch. -/
theorem Snapshot.Gained.length_rows {b : Batch} (hb : b ∈ bss.flatten) :
    (s'.rows b.table.name).length = (s.rows b.table.name).length + b.rows.length := by
  have hread := congrArg List.length (mem_outcomes hout hb).1
  rw [List.length_map, List.length_map, length_idsFrom] at hread
  rw [hg.rows hb, List.length_append, hread]

/-- The batches with rows are those of the tables that grow. -/
theorem Snapshot.Gained.mem_told {name : String} {count : Nat} :
    (name, count) ∈ WriteTally.told bss.flatten
      ↔ 0 < count ∧ (s'.rows name).length = (s.rows name).length + count := by
  rw [WriteTally.mem_told]
  constructor
  · rintro ⟨b, hb, hpos, rfl, rfl⟩
    exact ⟨hpos, hg.length_rows hout hb⟩
  · rintro ⟨hpos, hlen⟩
    obtain ⟨b, hb, rfl⟩ : ∃ b ∈ bss.flatten, b.table.name = name := by
      by_contra hno
      push Not at hno
      have hsame := hg.kept fun t ht he => by
        rw [← tables_outcomes hout] at ht
        obtain ⟨b, hb, rfl⟩ := List.mem_map.1 ht
        exact hno b hb he
      rw [hsame] at hlen
      omega
    have hgrown := hg.length_rows hout hb
    exact ⟨b, hb, hpos, rfl, by omega⟩

omit hout

/-- The tables of no recorded domain keep their rows. -/
theorem Snapshot.Gained.rows_eq {name : String}
    (he : ∀ d ∈ config.domains.enabled, ∀ t ∈ d.eventTables, t.name ≠ name)
    (ha : ∀ k : ListKind, k.domain.name ∈ config.domains.enabled →
      k.domain.aggregateSchema.table.name ≠ name) : s'.rows name = s.rows name := by
  refine hg.kept fun t ht => ?_
  obtain ⟨d, hd, ht⟩ := DomainSwitches.mem_tables ht
  rcases DomainName.mem_tables ht with ht | ⟨k, rfl, rfl⟩
  · exact he d hd t ht
  · exact ha k hd

/-- The entities that the events of a recorded domain name are known afterwards. -/
theorem Snapshot.Gained.known {d : DomainName} (hd : d ∈ config.domains.enabled) : ∀ y ∈ x.eventsOf d,
    ∀ a ∈ y.2.entity :: y.2.substate.mentions, ∃ e, s'.entities.get? a = some e := by
  intro y hy a ha
  obtain ⟨hy, hdomain⟩ := LedgerExtension.mem_eventsOf.1 hy
  obtain ⟨hentity, hmentions⟩ := mem_demandsOf hdomain hd
  rw [hg.entities]
  rcases List.mem_cons.1 ha with rfl | ha
  · exact World.exists_get?_demandAll (List.mem_flatMap.2 ⟨y, hy, hentity⟩)
  · exact World.exists_get?_demandAll (List.mem_flatMap.2 ⟨y, hy, hmentions a ha⟩)

end Rows

section Accounted

variable {n : Nat} {s : Snapshot} {C : Chronicles} {config : Configuration} {x : LedgerExtension}
  {report : InvocationReport} {w' : World}

theorem Allocator.starts_load (s : Snapshot) (config : Configuration) :
    ∃ a w, (Allocator.load (config.recorders.flatMap Recorder.tables)).run.calm s.idle = (.ok a, w)
      ∧ ∀ t ∈ config.domains.tables, (a.counter t).map (·.start) = .ok (s.nextIds t.name) := by
  rw [tables_recorders config]
  obtain ⟨a, ha, hissued⟩ := Allocator.calm_load config.domains.nodup_tables s.idle
  refine ⟨a, _, ha, fun t ht => ?_⟩
  rw [Allocator.counter, hissued.counter ht]
  rfl

/-- A calm invocation that ends well adds the rows of its events. -/
theorem accounted_of_calm (hs : s.Sound n) (hC : s.Recalls C)
    (hroom : n + (1 + 2 * x.eventCount) < 2 ^ 63) (hx : x.isEmpty = false) (hfree : x.IsFloatFree)
    (h : (recordExtension config x).calm s.idle = (.ok report, w')) :
    s.Accounted config x report w'.committed := by
  obtain ⟨bss, hout, hg⟩ := gained_of_calm hs hC hroom hx h
  obtain ⟨hperm, hids⟩ := report_of_calm hs hC hx hout h
  have hnumber := number_eq_numbering hg.entities
  have hn : ∀ d ∈ config.domains.enabled, ∀ y ∈ x.eventsOf d, ∀ z ∈ x.eventsOf d,
      s.numbering config x y.2.entity = s.numbering config x z.2.entity → y.2.entity = z.2.entity :=
    fun d hd y hy z hz => (hs.numbering_inj hroom (get?_prepared hd hy) (get?_prepared hd hz)).1
  refine ⟨Allocator.starts_load s config, hg.known, fun {d} _ => x.perm_rowEvents d,
    fun {d} hd {t} ht => ?_, fun {k} hk => ?_, hg.rows_eq, fun {name count} => ?_, ?_, ?_,
    fun {name count} hc => ?_⟩
  · rw [hnumber]
    exact hg.rows_eventTable hout hfree hd (hn d hd) ht
  · rw [hnumber]
    exact hg.rows_aggregates hout hk (hn _ hk)
  · rw [hperm.mem_iff]
    exact hg.mem_told hout
  · exact (hperm.map _).nodup_iff.2 (WriteTally.nodup_told (nodup_outcomes hout))
  · have htotal : report.totalRows = totalCount bss.flatten := by
      rw [totalCount, ← WriteTally.sum_told]
      exact (hperm.map _).sum_nat
    have hle := totalCount_outcomes_le hout
    rw [hids, htotal]
    exact Int64.toInt_ofNat_of_lt (by omega)
  · obtain ⟨b, hb, _, rfl, rfl⟩ := WriteTally.mem_told.1 (hperm.mem_iff.1 hc)
    exact hg.sequences hb

/-- An extension without events adds nothing. -/
theorem accounted_of_isEmpty (hx : x.isEmpty = true) (s : Snapshot) (config : Configuration) :
    s.Accounted config x { stateVersions := x.stateVersions?, events := x.eventCount } s := by
  have hevents : ∀ d, x.eventsOf d = [] := fun d => by
    rw [LedgerExtension.eventsOf, x.events_eq_nil hx, List.filter_nil]
  have hnone : ∀ d t, x.rowEvents d t = [] := fun d t => by
    have h : (x.arranged d).Perm (x.eventsOf d) := LedgerExtension.perm_arranged d
    rw [hevents] at h
    rw [LedgerExtension.rowEvents, h.eq_nil, List.filter_nil]
  refine ⟨Allocator.starts_load s config, fun {d} _ y hy => ?_, fun {d} _ => x.perm_rowEvents d,
    fun {d} _ {t} _ => ?_, fun {k} _ => ⟨[], ?_, ?_, rfl⟩, fun _ _ => rfl, fun {name count} => ?_,
    .nil, rfl, fun {name count} hc => ?_⟩
  · rw [hevents] at hy
    cases hy
  · rw [hnone]
    exact (List.append_nil _).symm
  · exact (List.append_nil _).symm
  · rw [LedgerExtension.touched, hevents]
    rfl
  · refine iff_of_false List.not_mem_nil ?_
    rintro ⟨hpos, hlen⟩
    omega
  · cases hc

end Accounted

/-- An extension that is recorded in a state that attempts lead to, while no sequence runs out, adds
one row for each event of an enabled domain and one aggregate for each entity and state version that
the events of an enabled domain with lists are of, under consecutive ids, and no other rows. It reports
the numbers of rows by their tables, and all of them as the number of ids. -/
theorem History.Reaches.accounted {h : History} {n : Nat} {s : Snapshot} (hs : h.Reaches n s)
    {config : Configuration} {x : LedgerExtension} (hroom : n + (1 + 2 * x.eventCount) < 2 ^ 63)
    (hfree : x.IsFloatFree) {report : InvocationReport} {w' : World}
    (hrun : (recordExtension config x).Runs s.idle (.ok report) w') :
    s.Accounted config x report w'.committed := by
  rcases hx : x.isEmpty with _ | _
  · rcases runs_recordExtension hx hrun with ⟨⟨_, he⟩, _⟩ | ⟨_, hcalm⟩
    · cases he
    · obtain ⟨hsound, C, H, hst⟩ := hs.stored (by omega)
      obtain ⟨B, _, hrecalls⟩ := hst.recalls hsound.keyed
      exact accounted_of_calm hsound hrecalls hroom hx hfree hcalm
  · obtain ⟨hr, rfl⟩ := runs_recordExtension_of_isEmpty hx hrun
    cases hr
    exact accounted_of_isEmpty hx s config

/-- What amends a store adds four entries, two aggregates and a rule to it, and reports them. -/
theorem History.Reaches.accounted_sample : ∃ (s : Snapshot) (report : InvocationReport) (w : World),
    History.Reaches [({}, sampleExtension)] 3 s
      ∧ (recordExtension {} amendingSample).Runs s.idle (.ok report) w
      ∧ s.Accounted {} amendingSample report w.committed
      ∧ w.committed.rows Metadata.entryTable.name
        = (sampleRows ++ amendingRows).entries.map Metadata.domain.encodeEntry
      ∧ (Metadata.entryTable.name, 4) ∈ report.rowsWritten
      ∧ (Metadata.domain.aggregateSchema.table.name, 2) ∈ report.rowsWritten
      ∧ (DepositRule.table.name, 1) ∈ report.rowsWritten
      ∧ (w.committed.sequence Metadata.entryTable.sequenceName).toInt = 5 := by
  obtain ⟨_, w, hcalm, hsampled⟩ := exists_sampled
  obtain ⟨report, w', hcalm', hc⟩ := hsampled.exists_amended
  have hs : History.Reaches [({}, sampleExtension)] 3 w.committed :=
    .recorded .start (Script.runs_of_calm hcalm)
  have hrun := Script.runs_of_calm hcalm'
  have haccounted := hs.accounted (by decide) (LedgerExtension.isFloatFree_of_documents (by decide)) hrun
  have hold := hsampled.chronicled.holds .metadata
  have hnew := hc.lists (k := .metadata) (by decide) hsampled.made_amending
  have hrule := hc.plain (k := .defaultDepositRule) (by decide)
  rw [hsampled.plain .defaultDepositRule] at hrule
  have hentries : (Metadata.entryTable.name, 4) ∈ report.rowsWritten := by
    refine haccounted.written.2 ⟨by decide, ?_⟩
    exact (congrArg List.length hnew.entries).trans
      (congrArg (List.length · + 4) hold.entries).symm
  refine ⟨_, report, w', hs, hrun, haccounted, hnew.entries, hentries, ?_, ?_, ?_⟩
  · refine haccounted.written.2 ⟨by decide, ?_⟩
    exact (congrArg List.length hnew.aggregates).trans
      (congrArg (List.length · + 2) hold.aggregates).symm
  · refine haccounted.written.2 ⟨by decide, ?_⟩
    exact (congrArg List.length hrule).trans
      (congrArg (List.length · + 1) (hsampled.plain .defaultDepositRule)).symm
  · refine (haccounted.sequences hentries).trans ?_
    rw [hsampled.nextIds (by decide)]
    rfl

end LedgerHistory
