import LedgerHistory.Proofs.Recording.Making
import LedgerHistory.Proofs.Recording.Outcome

/-!
# An invocation domain by domain

In a store whose rows are those of a chronicle for each domain with lists a calm invocation makes of
its events the rows that their groups add to these chronicles, or fails for the first domain with a
group at fault (`calm_prepareRows_outcome`). The chronicles list the most recent rows last, whatever
order the rows stand in.
-/

namespace LedgerHistory

/-- Whether a domain has lists or not. -/
def DomainName.kind : DomainName → ListKind ⊕ PlainKind
  | .metadata => .inl .metadata
  | .roleAssignment => .inl .roleAssignment
  | .methodRoyalty => .inl .methodRoyalty
  | .resourcePreference => .inl .resourcePreference
  | .authorizedDepositor => .inl .authorizedDepositor
  | .defaultDepositRule => .inr .defaultDepositRule
  | .componentState => .inr .componentState

theorem DomainName.eq_name (d : DomainName) :
    (∃ k : ListKind, d = k.domain.name) ∨ ∃ k : PlainKind, d = k.domain.name := by
  cases d with
  | metadata => exact .inl ⟨.metadata, rfl⟩
  | roleAssignment => exact .inl ⟨.roleAssignment, rfl⟩
  | methodRoyalty => exact .inl ⟨.methodRoyalty, rfl⟩
  | resourcePreference => exact .inl ⟨.resourcePreference, rfl⟩
  | authorizedDepositor => exact .inl ⟨.authorizedDepositor, rfl⟩
  | defaultDepositRule => exact .inr ⟨.defaultDepositRule, rfl⟩
  | componentState => exact .inr ⟨.componentState, rfl⟩

/-- A chronicle for each domain with lists. -/
abbrev Chronicles := ∀ k : ListKind, NewRows k.domain

/-- Whether a state holds chronicles whose rows stand in order. -/
structure Snapshot.Chronicled (s : Snapshot) (C : Chronicles) : Prop where
  holds (k : ListKind) : s.Holds k (C k)
  ordered (k : ListKind) : (C k).Ordered
  bare (k : ListKind) : ∀ a ∈ (C k).aggregates,
    k.domain.aggregateSchema.singletonColumn = none → a.singleton = none

/-- Whether the rows of a state are those of chronicles, which list the most recent rows last. -/
def Snapshot.Recalls (s : Snapshot) (B : Chronicles) : Prop :=
  ∀ k : ListKind, ∃ C, s.Holds k C ∧ C.Ranks (B k)
    ∧ ∀ a ∈ C.aggregates, k.domain.aggregateSchema.singletonColumn = none → a.singleton = none

theorem Snapshot.Chronicled.recalls {s : Snapshot} {C : Chronicles} (h : s.Chronicled C) :
    s.Recalls C := fun k => ⟨C k, h.holds k, (h.ordered k).ranks, h.bare k⟩

theorem Snapshot.Holds.congr {s s' : Snapshot} {k : ListKind} {C : NewRows k.domain}
    (h : s.Holds k C) (hrows : ∀ t ∈ k.domain.tables, s'.rows t.name = s.rows t.name) :
    s'.Holds k C where
  entries := (hrows _ (by simp [ListDomain.tables])).trans h.entries
  aggregates := (hrows _ (by simp [ListDomain.tables])).trans h.aggregates
  singletons ht := (hrows _ (by simp [ListDomain.tables, ht])).trans (h.singletons ht)

theorem Snapshot.Holds.of_tables_eq {s s' : Snapshot} {k : ListKind} {C : NewRows k.domain}
    (h : s.Holds k C) (ht : s'.tables = s.tables) : s'.Holds k C :=
  h.congr fun t _ => by simp only [Snapshot.rows, Snapshot.table, ht]

/-- The values that the sequences of tables advance to. -/
def Snapshot.nextIds (s : Snapshot) (name : String) : Int64 :=
  s.sequence (Table.sequenceNameOf name) + 1

/-- The groups of the changes that events mean to a domain. -/
def ListKind.groups (number : Numbering) (k : ListKind) (xs : List (Int64 × SubstateEvent)) :
    List k.domain.Group :=
  (GroupedChanges.ofList (k.visits number xs)).toList

/-- The greatest version of the changes that events mean to a domain. -/
def ListKind.greatest (number : Numbering) (k : ListKind) (xs : List (Int64 × SubstateEvent)) :
    Option Int64 :=
  (k.visits number xs).foldl (fun m x => raiseVersion m x.1.stateVersion) none

/-- The changes that events mean to a domain without lists. -/
def PlainKind.changes (number : Numbering) (k : PlainKind) (xs : List (Int64 × SubstateEvent)) :
    List (GroupKey × k.domain.Change) :=
  (k.visits number xs).map fun y => (⟨y.2.1, y.1⟩, y.2.2)

/-- The rows that events add to a chronicle. -/
def ListKind.made (k : ListKind) (C : NewRows k.domain) (start : String → Int64)
    (number : Numbering) (xs : List (Int64 × SubstateEvent)) :
    Except InvocationError (NewRows k.domain) :=
  (C.within (k.greatest number xs)).rowsAfter (k.domain.firstIds start) (k.groups number xs)

/-- The rows of a domain without lists that events make. -/
def PlainKind.made (k : PlainKind) (start : String → Int64) (number : Numbering)
    (xs : List (Int64 × SubstateEvent)) : List (HistoryRow k.domain.Change) :=
  enumerated (start k.domain.table.name) (k.changes number xs)

/-- The batches that a domain makes of events, or why it fails. -/
def DomainName.outcome (C : Chronicles) (start : String → Int64) (number : Numbering)
    (xs : List (Int64 × SubstateEvent)) (d : DomainName) : Except InvocationError (List Batch) :=
  match d.kind with
  | .inl k => (k.made (C k) start number xs).map k.batchesOf
  | .inr k => .ok (k.batchesOf (k.made start number xs))

namespace Recorder

variable {s : Snapshot} {C : Chronicles} {w : World} {ts : List Table} {start : String → Int64}
  {number : Numbering} {xs : List (Int64 × SubstateEvent)}

/-- A recorder that has visited events and loaded what they touch makes the rows of its domain. -/
theorem makes_loaded (hC : s.Recalls C) (hw : w.working.tables = s.tables)
    (hnd : (ts.map (·.name)).Nodup) (warnLength : Nat) {d : DomainName}
    (hts : ∀ t ∈ d.tables, t ∈ ts) :
    ∃ p', ((new warnLength d).visit number xs).loadLatest.run.calm w = (.ok p', w)
      ∧ p'.Makes ts start (d.outcome C start number xs) := by
  have hlist : ∀ k : ListKind, (∀ t ∈ k.domain.tables, t ∈ ts) →
      ∃ p', ((list k { warnLength }).visit number xs).loadLatest.run.calm w = (.ok p', w)
        ∧ p'.Makes ts start ((k.made (C k) start number xs).map k.batchesOf) := by
    intro k hk
    obtain ⟨B, hheld, hranks, hbare⟩ := hC k
    obtain ⟨prior, hload, ht⟩ := ListRecorder.calm_loadLatest (hheld.of_tables_eq hw) hranks hbare
      (p := ({ warnLength } : ListRecorder k.domain).visit (k.visits number xs)) rfl
    refine ⟨.list k _, Action.calm_bind_of_ok hload, makes_list (k.countedIn hnd hk) ?_ ht⟩
    show (GroupedChanges.ofList (k.visits number xs)).groups.keys.Nodup
    rw [GroupedChanges.keys_ofList]
    exact nodup_distinctKeys _
  have hplain : ∀ k : PlainKind, k.domain.table ∈ ts →
      ∃ p', ((plain k {}).visit number xs).loadLatest.run.calm w = (.ok p', w)
        ∧ p'.Makes ts start (.ok (k.batchesOf (k.made start number xs))) := by
    intro k hk
    exact ⟨_, rfl, makes_plain hnd hk _⟩
  cases d with
  | metadata => exact hlist .metadata hts
  | roleAssignment => exact hlist .roleAssignment hts
  | methodRoyalty => exact hlist .methodRoyalty hts
  | resourcePreference => exact hlist .resourcePreference hts
  | authorizedDepositor => exact hlist .authorizedDepositor hts
  | defaultDepositRule => exact hplain .defaultDepositRule (hts _ List.mem_cons_self)
  | componentState => exact hplain .componentState (hts _ List.mem_cons_self)

end Recorder

section Invocation

variable {s : Snapshot} {C : Chronicles} {config : Configuration} {x : LedgerExtension}

/-- The numbers of the entities once the addresses that events need are resolved. -/
def Snapshot.numbering (s : Snapshot) (config : Configuration) (x : LedgerExtension) : Numbering :=
  Routing.numbering (s.idle.prepared config x)

/-- What the enabled domains make of the events of an extension. -/
def outcomes (s : Snapshot) (C : Chronicles) (config : Configuration) (x : LedgerExtension) :
    Except InvocationError (List (List Batch)) :=
  config.domains.enabled.mapM
    (DomainName.outcome C s.nextIds (s.numbering config x) x.events)

/-- A calm invocation makes the rows of all domains, or fails as the first domain that fails. -/
theorem calm_prepareRows_outcome (hs : s.Addressed) (hC : s.Recalls C)
    (hx : ∀ y ∈ x.events, y.2.IsRoutable config.domains.enabled) :
    match outcomes s C config x with
    | .error e => ∃ w', (prepareRows config x).run.calm s.idle = (.error e, w')
    | .ok bss => ∃ known rs a, (prepareRows config x).run.calm s.idle
          = (.ok (known, rs, a), s.idle.prepared config x)
        ∧ rs.flatMap Recorder.batches = bss.flatten
        ∧ a.Issued config.domains.tables s.nextIds (rowCount bss.flatten) := by
  have hnd := config.domains.nodup_tables
  obtain ⟨a, ha, hissued⟩ := Allocator.calm_load hnd s.idle
  obtain ⟨known, hprep⟩ := calm_prepareRows hs hx ha
  have hvisited : config.visited x s.idle = config.domains.enabled.map fun d =>
      (Recorder.new config.maxAggregateWarnLength d).visit (s.numbering config x) x.events := by
    rw [Configuration.visited, Configuration.recorders, List.map_map]
    rfl
  have hload : ∀ p ∈ config.visited x s.idle, ∃ p',
      p.loadLatest.run.calm (s.idle.prepared config x) = (.ok p', s.idle.prepared config x)
        ∧ p'.Makes config.domains.tables s.nextIds
          (p.domain.outcome C s.nextIds (s.numbering config x) x.events) := by
    intro p hp
    rw [hvisited] at hp
    obtain ⟨d, hd, rfl⟩ := List.mem_map.1 hp
    rw [Recorder.domain_visit, Recorder.domain_new]
    exact Recorder.makes_loaded hC (tables_prepared config x s.idle) hnd _
      fun t ht => List.mem_flatMap.2 ⟨d, hd, ht⟩
  obtain ⟨loaded, hloaded, hmakes⟩ := Recorder.calm_mapM_loadLatest hload
  have hmakes : List.Forall₂ (Recorder.Makes config.domains.tables s.nextIds) loaded
      (config.domains.enabled.map
        (DomainName.outcome C s.nextIds (s.numbering config x) x.events)) := by
    rw [← domains_visited config x s.idle, List.map_map, List.forall₂_map_right_iff]
    exact hmakes.flip
  have htables : loaded.flatMap Recorder.tables = config.domains.tables := by
    refine Recorder.flatMap_tables ?_
    rw [Recorder.domains_mapM_loadLatest hloaded, domains_visited]
  have hall := Recorder.makeAll_eq hmakes (by rw [htables]; exact hnd) hissued fun _ _ => rfl
  rw [hloaded] at hprep
  simp only [Except.bind] at hprep
  have hout : (config.domains.enabled.map
      (DomainName.outcome C s.nextIds (s.numbering config x) x.events)).mapM id
        = outcomes s C config x := by
    rw [List.mapM_map]
    rfl
  rw [hout] at hall
  rcases hcase : outcomes s C config x with e | bss <;> rw [hcase] at hall
  · rw [hall] at hprep
    exact ⟨_, hprep⟩
  · obtain ⟨made, hmade, hflat, hcount⟩ := hall
    rw [hmade] at hprep
    refine ⟨known, made.1, made.2, hprep, hflat, ?_⟩
    simpa using hcount

end Invocation

end LedgerHistory
