import LedgerHistory.Proofs.Domain.Tables
import LedgerHistory.Proofs.Invocation.Allocator
import LedgerHistory.Proofs.Script.Strict
import LedgerHistory.Proofs.Store.Directory
import LedgerHistory.Proofs.Store.Writes

/-!
# The stages of an invocation

The stages fall into those up to the rows (`prepareRows`) and those that write them. They pass every
failure on and move no sequence by more than one value and two for each event
(`strict_runStages`), so an invocation either fails, with nothing committed, or is the calm run
(`runs_recordExtension`).
-/

namespace LedgerHistory

/-- The stages up to the rows: the entities met, the recorders with their rows, and the counters. -/
def prepareRows (config : Configuration) (x : LedgerExtension) :
    Action (KnownEntities × List Recorder × Allocator) := do
  let allocator ← Allocator.load (config.recorders.flatMap Recorder.tables)
  config.announceStage .loadSequences
  let routing ← Routing.routeAll { recorders := config.recorders } x.events
  config.announceStage .resolve
  let recorders ← routing.recorders.mapM Recorder.loadLatest
  config.announceStage .loadPriorState
  let (recorders, allocator) ← makeAllRows allocator recorders
  config.announceStage .process
  return (routing.known, recorders, allocator)

/-- What an invocation reports. -/
def reportOf (x : LedgerExtension) (known : KnownEntities) (allocator : Allocator)
    (tally : WriteTally) : InvocationReport :=
  { stateVersions := x.stateVersions?, events := x.eventCount,
    entitiesResolved := known.size, idsIssued := allocator.totalIssued,
    rowsWritten := tally.report,
    stages := [.loadSequences, .resolve, .loadPriorState, .process, .write,
      .persistSequences, .commit] }

theorem writeRows_eq (recorders : List Recorder) :
    writeRows recorders = WriteTally.writeEach {} (recorders.flatMap Recorder.batches) := by
  refine Eq.trans ?_ (WriteTally.writeAll_eq_writeEach {} (recorders.flatMap Recorder.batches))
  show (Script.bind (Script.bind (WriteTally.writeAll {} _) _) _ : Script _) = _
  rw [Script.bind_assoc]
  congr 1
  funext r
  rcases r with ⟨e | _, tally⟩ <;> rfl

theorem runStages_eq (config : Configuration) (x : LedgerExtension) :
    runStages config x = do
      let (known, recorders, allocator) ← prepareRows config x
      let tally ← WriteTally.writeEach {} (recorders.flatMap Recorder.batches)
      config.announceStage .write
      allocator.save
      config.announceStage .persistSequences
      return reportOf x known allocator tally := by
  simp only [runStages, prepareRows, writeRows_eq, bind_assoc, pure_bind]
  rfl

/-! ## Strictness -/

section Strictness

open LedgerHistory.Action

theorem World.advanced_resolveEntity (w : World) (a : Address) (v : Int64) :
    w.Advanced 1 (w.serve (.resolveEntity a v)).2 := by
  rcases h : w.working.entities.get? a with _ | e
  · rw [World.serve_resolveEntity_none h]
    exact ⟨rfl, rfl, (w.advanced_advance entitySequence).sequence,
      (w.advanced_advance entitySequence).nodup⟩
  · rw [World.serve_resolveEntity_some h]
    exact .refl

theorem World.committed_bulkLoad (w : World) (t : Table) (stream : List UInt8) :
    (w.serve (.bulkLoad t stream)).2.committed = w.committed := by
  rcases h : t.decodeStream stream with e | rows
  · rw [World.serve_bulkLoad_error h]
  · rw [World.serve_bulkLoad_ok h]

theorem strict_load {ts : List Table} (h : (ts.map (·.name)).Nodup) :
    (Allocator.load ts).run.Strict 1 := by
  unfold Allocator.load
  rw [Allocator.distinctTables_of_nodup h]
  refine strict_bind (n := 0) (strict_request fun w => ?_) fun values => strict_pure _
  rw [World.serve_advanceSequences_eq w h]
  exact w.advanced_advanceAll (nodup_sequenceNames h)

theorem strict_announceStage (config : Configuration) (stage : Stage) :
    (config.announceStage stage).run.Strict 0 := by
  unfold Configuration.announceStage
  split
  · exact strict_log _
  · exact strict_pure _

theorem strict_resolve (r : KnownEntities) (a : Address) (v : Int64) :
    (Routing.resolve r a v).run.Strict 1 := by
  refine (strict_bind (strict_failIfCancelled _) fun _ => ?_).mono (Nat.le_of_eq (Nat.zero_add 1))
  unfold KnownEntities.resolve
  split
  · exact (strict_pure _).mono (Nat.zero_le 1)
  · exact strict_bind (n := 0) (strict_perform fun w => w.advanced_resolveEntity a v)
      fun e => strict_pure _

theorem strict_resolveAll (v : Int64) (as : List Address) (r : KnownEntities) :
    (Routing.resolveAll r v as).run.Strict as.length := by
  induction as generalizing r with
  | nil => exact strict_pure _
  | cons a as ih =>
    have := strict_bind (strict_resolve r a v) fun x => ih x.2
    exact this.mono (Nat.le_of_eq (Nat.add_comm 1 as.length))

theorem length_mentions (s : Substate) : s.mentions.length ≤ 1 := by
  cases s <;> simp [Substate.mentions]

theorem strict_route (r : Routing) (v : Int64) (e : SubstateEvent) :
    (r.route v e).run.Strict 2 := by
  unfold Routing.route
  split
  · exact (strict_throw _).mono (Nat.zero_le 2)
  · rename_i d _
    split
    · have h := strict_bind (strict_resolve r.known e.entity v) fun x =>
        strict_bind (strict_resolveAll v e.substate.mentions x.2) fun known =>
          strict_bind (strict_ofExcept (Routing.addEventIn d
            (fun p => p.addEvent v x.1 e.substate known) r.recorders)) fun recorders =>
            strict_pure (⟨recorders, known⟩ : Routing)
      have := length_mentions e.substate
      exact h.mono (by omega)
    · exact (strict_pure _).mono (Nat.zero_le 2)

theorem strict_routeAll (xs : List (Int64 × SubstateEvent)) (r : Routing) :
    (r.routeAll xs).run.Strict (2 * xs.length) := by
  induction xs generalizing r with
  | nil => exact strict_pure _
  | cons x xs ih =>
    have := strict_bind (strict_route r x.1 x.2) fun r => ih r
    exact this.mono (by rw [List.length_cons]; omega)

theorem strict_lookup {κ α : Type} [DecidableEq κ] (l : LatestLookup κ α) (keys : List κ)
    (bound : Option Int64) : (l.load keys bound).run.Strict 0 := by
  unfold LatestLookup.load
  split
  · exact strict_pure _
  · exact strict_bind (m := 0) (n := 0) (strict_request fun w => .refl) fun rows =>
      strict_bind (n := 0) (strict_ofExcept _) fun found => strict_pure _

theorem strict_loadTouched {d : ListDomain} (p : ListRecorder d) : p.loadLatest.run.Strict 0 :=
  strict_bind (n := 0) (strict_lookup _ _ _) fun _ =>
    strict_bind (n := 0) (strict_lookup _ _ _) fun _ => strict_pure _

theorem strict_loadLatest (p : Recorder) : p.loadLatest.run.Strict 0 := by
  cases p with
  | list k p => exact strict_bind (n := 0) (strict_loadTouched p) fun p => strict_pure _
  | plain k p => exact strict_pure _

theorem strict_makeAllRows (rs : List Recorder) (a : Allocator) :
    (makeAllRows a rs).run.Strict 0 := by
  induction rs generalizing a with
  | nil => exact strict_pure _
  | cons p rs ih =>
    refine strict_bind (n := 0) (strict_failIfCancelled _) fun _ => ?_
    refine strict_bind (n := 0) (strict_forM (fun w => strict_log _) _) fun _ => ?_
    refine strict_bind (n := 0) (strict_ofExcept _) fun _ => ?_
    exact strict_bind (n := 0) (ih _) fun _ => strict_pure _

theorem strict_writeEach (bs : List Batch) (tally : WriteTally) :
    (WriteTally.writeEach tally bs).run.Strict 0 := by
  induction bs generalizing tally with
  | nil => exact strict_pure _
  | cons b bs ih =>
    refine strict_bind (m := 0) (n := 0) ?_ fun r => ih r.2
    unfold WriteTally.write
    split
    · exact strict_pure _
    · refine strict_bind (n := 0) (strict_failIfCancelled _) fun _ => ?_
      refine strict_bind (n := 0) (strict_ofExcept _) fun stream => ?_
      exact strict_bind (m := 0) (n := 0) (strict_request fun w =>
        .of_committed_eq (w.committed_bulkLoad b.table stream)) fun _ => strict_pure _

theorem strict_save (a : Allocator) : a.save.run.Strict 0 := by
  unfold Allocator.save
  split
  · exact strict_pure _
  · exact strict_request fun w => .of_committed_eq rfl

theorem strict_prepareRows (config : Configuration) (x : LedgerExtension) :
    (prepareRows config x).run.Strict (1 + 2 * x.eventCount) := by
  have htables : ((config.recorders.flatMap Recorder.tables).map (·.name)).Nodup := by
    rw [Recorder.flatMap_tables config.domains_recorders]
    exact config.domains.nodup_tables
  have h := strict_bind (strict_load htables) fun a =>
    strict_bind (strict_announceStage config .loadSequences) fun _ =>
    strict_bind (strict_routeAll x.events { recorders := config.recorders }) fun r =>
    strict_bind (strict_announceStage config .resolve) fun _ =>
    strict_bind (strict_mapM strict_loadLatest r.recorders) fun rs =>
    strict_bind (strict_announceStage config .loadPriorState) fun _ =>
    strict_bind (strict_makeAllRows rs a) fun made =>
    strict_bind (strict_announceStage config .process) fun _ =>
    strict_pure (r.known, made.1, made.2)
  exact h.mono (by rw [LedgerExtension.eventCount]; omega)

theorem strict_runStages (config : Configuration) (x : LedgerExtension) :
    (runStages config x).run.Strict (1 + 2 * x.eventCount) := by
  rw [runStages_eq]
  have h := strict_bind (strict_prepareRows config x) fun made =>
    strict_bind (strict_writeEach (made.2.1.flatMap Recorder.batches) {}) fun tally =>
    strict_bind (strict_announceStage config .write) fun _ =>
    strict_bind (strict_save made.2.2) fun _ =>
    strict_bind (strict_announceStage config .persistSequences) fun _ =>
    strict_pure (reportOf x made.1 made.2.2 tally)
  exact h.mono (by omega)

end Strictness

/-! ## Outcomes -/

theorem calm_announceStage (config : Configuration) (stage : Stage) (w : World) :
    (config.announceStage stage).run.calm w = (.ok (), w) := by
  unfold Configuration.announceStage
  split <;> rfl

/-- A calm invocation that ends well has its rows made, written and their ids recorded. -/
theorem calm_runStages_eq_ok {config : Configuration} {x : LedgerExtension} {w w' : World}
    {report : InvocationReport} : (runStages config x).run.calm w = (.ok report, w')
      ↔ ∃ made w₁ tally w₂, (prepareRows config x).run.calm w = (.ok made, w₁)
        ∧ (WriteTally.writeEach {} (made.2.1.flatMap Recorder.batches)).run.calm w₁ = (.ok tally, w₂)
        ∧ report = reportOf x made.1 made.2.2 tally
        ∧ w' = { w₂ with working := w₂.working.raiseAll made.2.2.lastIssued } := by
  rw [runStages_eq, Action.calm_bind_eq_ok]
  refine exists_congr fun made => ?_
  constructor
  · rintro ⟨w₁, h₁, h⟩
    obtain ⟨tally, w₂, h₂, h⟩ := Action.calm_bind_eq_ok.1 h
    rw [Action.calm_bind_of_ok (calm_announceStage ..),
      Action.calm_bind_of_ok (Allocator.calm_save_eq ..),
      Action.calm_bind_of_ok (calm_announceStage ..)] at h
    cases h
    exact ⟨w₁, tally, w₂, h₁, h₂, rfl, rfl⟩
  · rintro ⟨w₁, tally, w₂, h₁, h₂, rfl, rfl⟩
    refine ⟨w₁, h₁, Action.calm_bind_eq_ok.2 ⟨tally, w₂, h₂, ?_⟩⟩
    rw [Action.calm_bind_of_ok (calm_announceStage ..),
      Action.calm_bind_of_ok (Allocator.calm_save_eq ..),
      Action.calm_bind_of_ok (calm_announceStage ..)]
    rfl

namespace World

/-- The world after the transaction is committed. -/
def commit (w : World) : World :=
  ⟨w.connection.commit.committed, w.connection.commit.committed⟩

/-- The world at the start of a transaction. -/
def opened (w : World) : World := ⟨w.committed, w.committed⟩

theorem advanced_opened (w : World) (n : Nat) : w.Advanced n w.opened := .of_committed_eq rfl

end World

/-- The world of a store without a transaction. -/
def Snapshot.idle (s : Snapshot) : World := ⟨s, s⟩

/-- The stages and the last check before the commit. -/
def stagesToCommit (config : Configuration) (x : LedgerExtension) : Action InvocationReport := do
  let report ← runStages config x
  Action.failIfCancelled .commit
  return report

theorem strict_stagesToCommit (config : Configuration) (x : LedgerExtension) :
    (stagesToCommit config x).run.Strict (1 + 2 * x.eventCount) :=
  Action.strict_bind (n := 0) (strict_runStages config x) fun _ =>
    Action.strict_bind (n := 0) (Action.strict_failIfCancelled _) fun _ => Action.strict_pure _

theorem calm_stagesToCommit (config : Configuration) (x : LedgerExtension) (w : World) :
    (stagesToCommit config x).run.calm w = (runStages config x).run.calm w := by
  rw [stagesToCommit, Action.calm_bind]
  rcases (runStages config x).run.calm w with ⟨e | report, w₁⟩ <;> rfl

/-- A calm invocation commits what its stages leave, or gives it up. -/
theorem calm_recordExtension {x : LedgerExtension} (hx : x.isEmpty = false)
    (config : Configuration) (w : World) : (recordExtension config x).calm w
      = match (runStages config x).run.calm w.opened with
        | (.ok report, w) => (.ok report, w.commit)
        | (.error e, w) => (.error e, w.opened) := by
  unfold recordExtension
  rw [if_neg (by rw [hx]; exact Bool.false_ne_true)]
  have hbody := calm_stagesToCommit config x w.opened
  unfold stagesToCommit at hbody
  refine (Script.calm_bind (Action.request .begin .begin).run _ w).trans ?_
  rw [Action.calm_request, World.serve_begin]
  refine (Script.calm_bind _ _ w.opened).trans ?_
  rw [hbody]
  rcases (runStages config x).run.calm w.opened with ⟨e | report, w₁⟩
  · rfl
  · refine (Action.calm_bind_of_ok (show (Action.perform .commit .commit).run.calm w₁
      = (.ok (), w₁.commit) from rfl)).trans ?_
    rw [Action.calm_bind_of_ok (calm_announceStage ..)]
    rfl

theorem runs_giveUp {e : InvocationError} {w w' : World} {u : Unit}
    (h : (giveUp e).Runs w u w') : w'.committed = w.committed := by
  cases h with
  | serve h =>
    cases h with
    | log h => cases h; rfl
  | fail cause h =>
    cases h with
    | log h =>
      cases h with
      | log h => cases h; rfl

theorem runs_commit {config : Configuration} {report : InvocationReport} {w w' : World}
    {r : Except InvocationError InvocationReport}
    (h : (do
      Action.perform .commit .commit
      config.announceStage .commit
      return report : Action InvocationReport).run.Runs w r w') :
    r = .ok report ∧ w' = w.commit ∨ (∃ e, r = .error e) ∧ w' = w := by
  cases h with
  | serve h =>
    left
    have : (do
      config.announceStage .commit
      return report : Action InvocationReport).run.Runs w.commit r w' := h
    unfold Configuration.announceStage at this
    split at this
    · cases this with
      | log h => cases h; exact ⟨rfl, rfl⟩
    · cases this
      exact ⟨rfl, rfl⟩
  | fail e h =>
    cases h
    exact .inr ⟨⟨_, rfl⟩, rfl⟩

/-- An invocation fails with nothing committed, or it goes as if calm. -/
theorem runs_recordExtension {config : Configuration} {x : LedgerExtension} {w w' : World}
    {r : Except InvocationError InvocationReport} (hx : x.isEmpty = false)
    (h : (recordExtension config x).Runs w r w') :
    (∃ e, r = .error e) ∧ w.Advanced (1 + 2 * x.eventCount) w'
      ∨ (∃ report, r = .ok report) ∧ (recordExtension config x).calm w = (r, w') := by
  have hcalm := calm_recordExtension hx config w
  unfold recordExtension at h
  rw [if_neg (by rw [hx]; exact Bool.false_ne_true)] at h
  obtain ⟨b, w₁, hb, h⟩ := Script.runs_bind.1 h
  have hstrict : (Action.request .begin .begin).run.Strict 0 :=
    Action.strict_request fun w => w.advanced_opened 0
  rcases b with e | u
  · cases h
    exact .inl ⟨⟨e, rfl⟩, (Script.advanced_of_runs hstrict hb).mono (Nat.zero_le _)⟩
  · have hopen := Script.calm_of_runs hstrict hb
    rw [Action.calm_request, World.serve_begin] at hopen
    obtain ⟨_, rfl⟩ := Prod.mk.inj hopen
    obtain ⟨outcome, w₂, hout, h⟩ := Script.runs_bind.1 h
    have hout : (stagesToCommit config x).run.Runs w.opened outcome w₂ := hout
    have hadv : w.Advanced (1 + 2 * x.eventCount) w₂ :=
      ((w.advanced_opened 0).trans (Script.advanced_of_runs (strict_stagesToCommit config x)
        hout)).mono (by omega)
    rcases outcome with e | report
    · obtain ⟨u, w₃, hg, h⟩ := Script.runs_bind.1 h
      cases h
      refine .inl ⟨⟨e, rfl⟩, (hadv.trans (n := 0) ?_).mono (by omega)⟩
      exact .of_committed_eq (runs_giveUp hg)
    · have hstages := Script.calm_of_runs (strict_stagesToCommit config x) hout
      rw [calm_stagesToCommit] at hstages
      rcases runs_commit h with ⟨rfl, rfl⟩ | ⟨he, rfl⟩
      · exact .inr ⟨⟨report, rfl⟩, by rw [hcalm, hstages]⟩
      · exact .inl ⟨he, hadv⟩

/-- What would be recorded may be cancelled just before the commit. -/
theorem exists_runs_cancelled {config : Configuration} {x : LedgerExtension} (hx : x.isEmpty = false)
    {w w' : World} {report : InvocationReport}
    (h : (recordExtension config x).calm w = (.ok report, w')) :
    ∃ w'', (recordExtension config x).Runs w (.error (.cancelled .commit)) w'' := by
  rw [calm_recordExtension hx] at h
  rcases hs : (runStages config x).run.calm w.opened with ⟨e | r, w₁⟩
  · rw [hs] at h
    cases h
  · refine ⟨((giveUp (.cancelled .commit)).calm w₁).2, ?_⟩
    unfold recordExtension
    rw [if_neg (by rw [hx]; exact Bool.false_ne_true)]
    refine Script.runs_bind.2 ⟨_, _, Script.runs_calm (Action.request .begin .begin).run w, ?_⟩
    refine Script.runs_bind.2 ⟨.error (.cancelled .commit), w₁, ?_, ?_⟩
    · exact Script.runs_bind.2 ⟨_, _, Script.runs_of_calm hs, .check true (.done _ _)⟩
    · exact Script.runs_bind.2 ⟨_, _, Script.runs_calm (giveUp _) w₁, .done _ _⟩

theorem LedgerExtension.events_eq_nil (x : LedgerExtension) (hx : x.isEmpty = true) :
    x.events = [] := by
  refine List.flatMap_eq_nil_iff.2 fun t ht => ?_
  have := List.all_eq_true.1 hx t ht
  rw [List.isEmpty_iff.1 this]
  rfl

theorem runs_recordExtension_of_isEmpty {config : Configuration} {x : LedgerExtension}
    {w w' : World} {r : Except InvocationError InvocationReport} (hx : x.isEmpty = true)
    (h : (recordExtension config x).Runs w r w') :
    r = .ok { stateVersions := x.stateVersions?, events := x.eventCount } ∧ w' = w := by
  unfold recordExtension at h
  rw [if_pos hx] at h
  cases h
  exact ⟨rfl, rfl⟩

end LedgerHistory
