import LedgerHistory.Proofs.Recording.Preparation

/-!
# What an invocation leaves

A calm invocation that ends well appends the rows of its recorders, as they are read back, to their
tables and the demanded addresses to the directory (`recorded_of_calm`, `Recorded.rows_eq`,
`Recorded.entities_eq`).
-/

namespace LedgerHistory

variable {config : Configuration} {x : LedgerExtension} {w w' : World} {report : InvocationReport}

theorem World.commit_frame (w : World) : w.commit.committed.tables = w.working.tables
    ∧ w.commit.committed.entities = w.working.entities := by
  show (w.committed.sequences.entries.foldl (fun s e => s.raise e.1 e.2) w.working).tables = _
    ∧ (w.committed.sequences.entries.foldl (fun s e => s.raise e.1 e.2) w.working).entities = _
  generalize w.committed.sequences.entries = es
  generalize w.working = s
  induction es generalizing s with
  | nil => exact ⟨rfl, rfl⟩
  | cons e es ih => exact ih (s.raise e.1 e.2)

theorem tables_prepared (config : Configuration) (x : LedgerExtension) (w : World) :
    (w.prepared config x).working.tables = w.working.tables :=
  (World.tables_demandAll _).trans (w.working_advanceAll _).1

theorem batches_ok {rs : List Recorder} (h : rs.map (·.domain) = config.domains.enabled) :
    (rs.flatMap Recorder.batches).map (·.table) = config.domains.tables
      ∧ ∀ b ∈ rs.flatMap Recorder.batches,
        b.table.arity < 0x8000 ∧ b.table.positionOf idColumn = .ok 0 := by
  have ht : (rs.flatMap Recorder.batches).map (·.table) = config.domains.tables :=
    Recorder.flatMap_batches h
  refine ⟨ht, fun b hb => ?_⟩
  have hm : b.table ∈ config.domains.tables := by
    rw [← ht]
    exact List.mem_map_of_mem hb
  exact DomainSwitches.tables_ok hm

/-- What the rows of an invocation were made of, and where they went. -/
structure Recorded (config : Configuration) (x : LedgerExtension) (w w' : World)
    (recorders : List Recorder) (allocator : Allocator) (reads : List (List Row)) : Prop where
  routable : ∀ y ∈ x.events, y.2.IsRoutable config.domains.enabled
  made : ∃ a loaded, (Allocator.load config.domains.tables).run.calm w
      = (.ok a, w.advanceAll (config.domains.tables.map (·.sequenceName)))
    ∧ ((config.visited x w).mapM Recorder.loadLatest).run.calm (w.prepared config x)
      = (.ok loaded, w.prepared config x)
    ∧ Recorder.makeAll a loaded = .ok (recorders, allocator)
  readsBack : List.Forall₂ Batch.ReadsBack (recorders.flatMap Recorder.batches) reads
  written : ∃ s, Snapshot.Appended ((config.domains.tables.map (·.name)).zip reads)
      (w.prepared config x).working s
    ∧ w' = (World.mk (w.prepared config x).committed (s.raiseAll allocator.lastIssued)).commit

theorem Recorded.domains {rs : List Recorder} {a : Allocator} {reads : List (List Row)}
    (h : Recorded config x w w' rs a reads) : rs.map (·.domain) = config.domains.enabled := by
  obtain ⟨_, loaded, _, hl, hm⟩ := h.made
  rw [Recorder.domains_makeAll hm, Recorder.domains_mapM_loadLatest hl, domains_visited]

/-- A calm invocation that ends well. -/
theorem recorded_of_calm (hw : w.working.Addressed) (hx : x.isEmpty = false)
    (ho : w.opened = w) (h : (recordExtension config x).calm w = (.ok report, w')) :
    ∃ rs a reads, Recorded config x w w' rs a reads := by
  rw [calm_recordExtension hx, ho] at h
  rcases hs : (runStages config x).run.calm w with ⟨e | r, w₁⟩
  · rw [hs] at h
    cases h
  · rw [hs] at h
    obtain ⟨made, w₂, tally, w₃, hprep, hwrite, _, rfl⟩ := calm_runStages_eq_ok.1 hs
    cases h
    obtain ⟨hroute, rfl, a, loaded, ha, hl, hm⟩ := calm_prepareRows_eq_ok hw hprep
    have hd : made.2.1.map (·.domain) = config.domains.enabled := by
      rw [Recorder.domains_makeAll hm, Recorder.domains_mapM_loadLatest hl, domains_visited]
    obtain ⟨htables, hok⟩ := batches_ok hd
    obtain ⟨reads, hreads, hc, happ⟩ := WriteTally.calm_writeEach (fun b hb => (hok b hb).1)
      (fun b hb => (hok b hb).2) hwrite
    rw [show (made.2.1.flatMap Recorder.batches).map (·.table.name)
      = config.domains.tables.map (·.name) by rw [← htables, List.map_map]; rfl] at happ
    refine ⟨made.2.1, made.2.2, reads, hroute, ⟨a, loaded, ha, hl, hm⟩, hreads, w₃.working, happ, ?_⟩
    rw [hc]

section Recorded

variable {rs : List Recorder} {a : Allocator} {reads : List (List Row)}
  (h : Recorded config x w w' rs a reads)

include h

theorem Recorded.tables_eq : ∃ s, Snapshot.Appended ((config.domains.tables.map (·.name)).zip reads)
      (w.prepared config x).working s
    ∧ w'.committed.tables = s.tables ∧ w'.committed.entities = s.entities := by
  obtain ⟨s, happ, rfl⟩ := h.written
  obtain ⟨ht, he⟩ := World.commit_frame
    ⟨(w.prepared config x).committed, s.raiseAll a.lastIssued⟩
  obtain ⟨ht', he'⟩ := Allocator.frame_raiseAll (s := s) a.lastIssued
  exact ⟨s, happ, ht.trans ht', he.trans he'⟩

theorem Recorded.rows_eq (name : String) : w'.committed.rows name = w.working.rows name
    ++ (((config.domains.tables.map (·.name)).zip reads).filter (·.1 = name)).flatMap (·.2) := by
  obtain ⟨s, happ, ht, _⟩ := h.tables_eq
  have hrows : w'.committed.rows name = s.rows name := by
    simp only [Snapshot.rows, Snapshot.table, ht]
  have hold : (w.prepared config x).working.rows name = w.working.rows name := by
    simp only [Snapshot.rows, Snapshot.table, tables_prepared]
  rw [hrows, happ.rows, hold]

theorem Recorded.entities_eq :
    w'.committed.entities = (w.prepared config x).working.entities := by
  obtain ⟨s, happ, _, he⟩ := h.tables_eq
  exact he.trans happ.entities

end Recorded

end LedgerHistory
