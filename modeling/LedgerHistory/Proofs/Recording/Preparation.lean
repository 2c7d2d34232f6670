import LedgerHistory.Proofs.Recording.Refusals
import LedgerHistory.Proofs.Recording.Stages

/-!
# Up to the rows

A calm invocation advances the sequences of its tables, demands the addresses that its events need,
lets each recorder visit the events, loads the prior rows and makes the rows, one recorder after
another (`calm_prepareRows`). An event that cannot be routed ends it before any row is loaded
(`calm_recordExtension_of_refusal`).
-/

namespace LedgerHistory

namespace Recorder

/-- Lets every recorder make its rows. -/
def makeAll (allocator : Allocator) :
    List Recorder → Except InvocationError (List Recorder × Allocator)
  | [] => .ok ([], allocator)
  | p :: rest => do
    let done := p.makeRows allocator
    done.result
    let (ps, allocator) ← makeAll done.allocator rest
    return (done.recorder :: ps, allocator)

theorem calm_forM_log (ws : List Warning) (w : World) :
    (ws.forM fun x => Action.log (.warning x)).run.calm w = (.ok (), w) := by
  induction ws with
  | nil => rfl
  | cons x ws ih => exact (Action.calm_bind_of_ok (Action.calm_log ..)).trans ih

theorem calm_makeAllRows (rs : List Recorder) (a : Allocator) (w : World) :
    (makeAllRows a rs).run.calm w = (makeAll a rs, w) := by
  induction rs generalizing a with
  | nil => rfl
  | cons p rs ih =>
    rw [makeAllRows, makeAll, Action.calm_bind_of_ok (Action.calm_failIfCancelled ..),
      Action.calm_bind_of_ok (calm_forM_log ..), Action.calm_bind, Action.calm_ofExcept]
    rcases (p.makeRows a).result with e | u
    · rfl
    · refine (Action.calm_bind ..).trans ?_
      rw [ih]
      show _ = ((makeAll (p.makeRows a).allocator rs >>= fun made =>
        Except.ok ((p.makeRows a).recorder :: made.1, made.2)), w)
      rcases makeAll (p.makeRows a).allocator rs with e | made <;> rfl

theorem makeAll_cons_eq_ok {p : Recorder} {rs : List Recorder} {a : Allocator}
    {made : List Recorder × Allocator} : makeAll a (p :: rs) = .ok made
      ↔ (p.makeRows a).result = .ok () ∧ ∃ rest, makeAll (p.makeRows a).allocator rs = .ok rest
        ∧ made = ((p.makeRows a).recorder :: rest.1, rest.2) := by
  rw [makeAll, bind_eq_ok]
  constructor
  · rintro ⟨⟨⟩, h, hm⟩
    obtain ⟨rest, hr, hm⟩ := bind_eq_ok.1 hm
    cases hm
    exact ⟨h, rest, hr, rfl⟩
  · rintro ⟨h, rest, hr, rfl⟩
    exact ⟨(), h, bind_eq_ok.2 ⟨rest, hr, rfl⟩⟩

theorem domain_makeRows (p : Recorder) (a : Allocator) :
    (p.makeRows a).recorder.domain = p.domain := by
  cases p <;> rfl

theorem domains_makeAll {rs : List Recorder} {a : Allocator} {made : List Recorder × Allocator}
    (h : makeAll a rs = .ok made) : made.1.map (·.domain) = rs.map (·.domain) := by
  induction rs generalizing a made with
  | nil =>
    cases h
    rfl
  | cons p rs ih =>
    obtain ⟨_, rest, hr, rfl⟩ := makeAll_cons_eq_ok.1 h
    simp only [List.map_cons, domain_makeRows, ih hr]

theorem reads_lookup {κ α : Type} [DecidableEq κ] (l : LatestLookup κ α) (keys : List κ)
    (bound : Option Int64) : (l.load keys bound).Reads := by
  unfold LatestLookup.load
  split
  · exact Action.reads_pure _
  · refine Action.reads_bind (fun w => ?_) fun rows =>
      Action.reads_bind (Action.reads_ofExcept _) fun _ => Action.reads_pure _
    rw [Action.calm_request, World.serve_latest]

theorem reads_loadLatest (p : Recorder) : p.loadLatest.Reads := by
  cases p with
  | list k p =>
    refine Action.reads_bind ?_ fun _ => Action.reads_pure _
    exact Action.reads_bind (reads_lookup _ _ _) fun _ =>
      Action.reads_bind (reads_lookup _ _ _) fun _ => Action.reads_pure _
  | plain k p => exact Action.reads_pure _

theorem domain_loadLatest {p p' : Recorder} {w w' : World}
    (h : p.loadLatest.run.calm w = (.ok p', w')) : p'.domain = p.domain := by
  cases p with
  | list k p =>
    obtain ⟨_, _, _, h⟩ := Action.calm_bind_eq_ok.1 h
    cases h
    rfl
  | plain k p =>
    cases h
    rfl

theorem domains_mapM_loadLatest {rs loaded : List Recorder} {w w' : World}
    (h : (rs.mapM loadLatest).run.calm w = (.ok loaded, w')) :
    loaded.map (·.domain) = rs.map (·.domain) := by
  induction rs generalizing w loaded with
  | nil =>
    cases h
    rfl
  | cons p rs ih =>
    rw [List.mapM_cons] at h
    obtain ⟨p', w₁, hp, h⟩ := Action.calm_bind_eq_ok.1 h
    obtain ⟨rest, w₂, hr, h⟩ := Action.calm_bind_eq_ok.1 h
    cases h
    rw [List.map_cons, List.map_cons, domain_loadLatest hp, ih hr]

end Recorder

/-- The world once the tables' sequences are advanced and the addresses demanded. -/
def World.prepared (config : Configuration) (x : LedgerExtension) (w : World) : World :=
  (w.advanceAll (config.domains.tables.map (·.sequenceName))).demandAll
    (x.events.flatMap (demandsOf config.domains.enabled))

/-- The recorders after they have visited the events. -/
def Configuration.visited (config : Configuration) (x : LedgerExtension) (w : World) :
    List Recorder :=
  config.recorders.map (·.visit (Routing.numbering (w.prepared config x)) x.events)

variable {config : Configuration} {x : LedgerExtension} {w : World}

theorem addressed_advanceAll (hw : w.working.Addressed) (names : List String) :
    (w.advanceAll names).working.Addressed :=
  hw.of_entities_eq (w.working_advanceAll names).2

theorem tables_recorders (config : Configuration) :
    config.recorders.flatMap Recorder.tables = config.domains.tables :=
  Recorder.flatMap_tables config.domains_recorders

theorem domains_visited (config : Configuration) (x : LedgerExtension) (w : World) :
    (config.visited x w).map (·.domain) = config.domains.enabled := by
  rw [Configuration.visited, List.map_map, ← config.domains_recorders]
  exact List.map_congr_left fun p _ => p.domain_visit x.events

/-- The rows that a calm invocation makes of events that can be routed. -/
theorem calm_prepareRows (hw : w.working.Addressed)
    (hx : ∀ y ∈ x.events, y.2.IsRoutable config.domains.enabled) {a : Allocator}
    (ha : (Allocator.load config.domains.tables).run.calm w
      = (.ok a, w.advanceAll (config.domains.tables.map (·.sequenceName)))) :
    ∃ known, (prepareRows config x).run.calm w
      = ((((config.visited x w).mapM Recorder.loadLatest).run.calm (w.prepared config x)).1.bind
          fun loaded => (Recorder.makeAll a loaded).map (known, ·), w.prepared config x) := by
  have hd := config.domains_recorders
  obtain ⟨known, hroute⟩ := Routing.calm_routeAll (r := { recorders := config.recorders })
    (KnownEntities.meets_empty _) (addressed_advanceAll hw (config.domains.tables.map (·.sequenceName)))
    (by rw [hd]; exact config.domains.nodup_enabled) (by rw [hd]; exact hx)
    (Routing.numbering (w.prepared config x))
    (by rw [hd]; exact Routing.numbering_of_get?)
  rw [hd] at hroute
  have hroute : (Routing.routeAll { recorders := config.recorders } x.events).run.calm
      (w.advanceAll (config.domains.tables.map (·.sequenceName)))
        = (.ok ⟨config.visited x w, known⟩, w.prepared config x) := hroute
  refine ⟨known, ?_⟩
  unfold prepareRows
  rw [tables_recorders, Action.calm_bind_of_ok ha, Action.calm_bind_of_ok (calm_announceStage ..),
    Action.calm_bind_of_ok hroute, Action.calm_bind_of_ok (calm_announceStage ..), Action.calm_bind]
  have hload := Action.reads_mapM Recorder.reads_loadLatest (config.visited x w) (w.prepared config x)
  rcases hl : ((config.visited x w).mapM Recorder.loadLatest).run.calm (w.prepared config x)
    with ⟨e | loaded, w₁⟩ <;> rw [hl] at hload <;> subst hload
  · rfl
  · simp only [Except.bind]
    rw [Action.calm_bind_of_ok (calm_announceStage ..), Action.calm_bind,
      Recorder.calm_makeAllRows]
    rcases Recorder.makeAll a loaded with e | made
    · rfl
    · simp only
      rw [Action.calm_bind_of_ok (calm_announceStage ..)]
      rfl

/-- What it takes for a calm invocation to make its rows. -/
theorem calm_prepareRows_eq_ok (hw : w.working.Addressed)
    {made : KnownEntities × List Recorder × Allocator} {w' : World}
    (h : (prepareRows config x).run.calm w = (.ok made, w')) :
    (∀ y ∈ x.events, y.2.IsRoutable config.domains.enabled) ∧ w' = w.prepared config x
      ∧ ∃ a loaded, (Allocator.load config.domains.tables).run.calm w
          = (.ok a, w.advanceAll (config.domains.tables.map (·.sequenceName)))
        ∧ ((config.visited x w).mapM Recorder.loadLatest).run.calm w' = (.ok loaded, w')
        ∧ Recorder.makeAll a loaded = .ok made.2 := by
  obtain ⟨a, ha, _⟩ := Allocator.calm_load config.domains.nodup_tables w
  have hd := config.domains_recorders
  have hx : ∀ y ∈ x.events, y.2.IsRoutable config.domains.enabled := by
    have h := h
    unfold prepareRows at h
    rw [tables_recorders, Action.calm_bind_of_ok ha,
      Action.calm_bind_of_ok (calm_announceStage ..)] at h
    obtain ⟨routing, w₁, hroute, _⟩ := Action.calm_bind_eq_ok.1 h
    have := Routing.routable_of_routeAll (r := { recorders := config.recorders })
      (KnownEntities.meets_empty _) (addressed_advanceAll hw _)
      (by rw [hd]; exact config.domains.nodup_enabled) hroute
    rwa [hd] at this
  obtain ⟨known, hprep⟩ := calm_prepareRows hw hx ha
  rw [h] at hprep
  obtain ⟨hmade, rfl⟩ := Prod.mk.inj hprep
  refine ⟨hx, rfl, a, ?_⟩
  have hload := Action.reads_mapM Recorder.reads_loadLatest (config.visited x w) (w.prepared config x)
  rcases hl : ((config.visited x w).mapM Recorder.loadLatest).run.calm (w.prepared config x)
    with ⟨e | loaded, w₁⟩
  · rw [hl] at hmade
    cases hmade
  · rw [hl] at hmade hload
    obtain ⟨made', hm, he⟩ := map_eq_ok.1 hmade.symm
    subst hload
    refine ⟨loaded, ha, rfl, ?_⟩
    rw [hm, ← he]

/-! ## Events that cannot be routed -/

section Invocation

variable {s : Snapshot} {config : Configuration} {x : LedgerExtension} {e : InvocationError}

theorem LedgerExtension.isEmpty_of_findSome? {ds : List DomainName}
    (h : x.events.findSome? (refusal? ds) = some e) : x.isEmpty = false := by
  rcases hx : x.isEmpty with _ | _
  · rfl
  · rw [x.events_eq_nil hx] at h
    cases h

/-- The first event that is refused ends a calm invocation. -/
theorem calm_recordExtension_of_refusal (hs : s.Addressed)
    (hx : x.events.findSome? (refusal? config.domains.enabled) = some e) :
    ∃ w', (recordExtension config x).calm s.idle = (.error e, w') := by
  obtain ⟨a, ha, _⟩ := Allocator.calm_load config.domains.nodup_tables s.idle
  have hd := config.domains_recorders
  obtain ⟨w', hroute⟩ := Routing.calm_routeAll_of_refusal (r := { recorders := config.recorders })
    (KnownEntities.meets_empty _) (addressed_advanceAll (w := s.idle) hs _)
    (by rw [hd]; exact config.domains.nodup_enabled) (by rw [hd]; exact hx)
  have hstages : (runStages config x).run.calm s.idle = (.error e, w') := by
    rw [runStages, tables_recorders, Action.calm_bind_of_ok ha,
      Action.calm_bind_of_ok (calm_announceStage ..), Action.calm_bind_of_error hroute]
  refine ⟨w'.opened, ?_⟩
  rw [calm_recordExtension (LedgerExtension.isEmpty_of_findSome? hx),
    show s.idle.opened = s.idle from rfl, hstages]

end Invocation

end LedgerHistory
