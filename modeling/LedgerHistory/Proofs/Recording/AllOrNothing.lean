import LedgerHistory.Proofs.Recording.Provenance
import LedgerHistory.Proofs.Recording.Reaches
import LedgerHistory.Store.Interleaving

/-!
# All or nothing

In every state that operations and invocations reach, each address of the directory stands once
(`OpenStore.addressed_of_reachable`). There an invocation that fails leaves rows and directory as
they were, whenever and wherever it fails, and one that ends well appends the rows of its recorders
and the addresses that its events demand (`runs_recordExtension_allOrNothing`).
-/

namespace LedgerHistory

/-- The states that operations and invocations reach from an empty store. -/
inductive OpenStore.Reachable : OpenStore → Prop
  | start : Reachable {}
  | step {s : OpenStore} (h : Reachable s) (op : StoreOperation) : Reachable (s.step op).2
  | record {s : OpenStore} (h : Reachable s) {config : Configuration} {x : LedgerExtension}
      {r : Except InvocationError InvocationReport} {w' : World}
      (hrun : (recordExtension config x).Runs s.store.committed.idle r w') (failNextCopy : Bool) :
      Reachable (s.withStore ⟨w'.committed, failNextCopy⟩)

/-! ## The directory of reachable states -/

namespace Snapshot

theorem addressed_empty : ({} : Snapshot).Addressed := ⟨List.nodup_nil, fun h => by cases h⟩

theorem Addressed.insert {s : Snapshot} (h : s.Addressed) {e : Entity} {a : Address}
    (he : e.address = a) : ({ s with entities := s.entities.insert a e } : Snapshot).Addressed := by
  refine ⟨Dictionary.nodup_keys_insert h.nodup _ _, fun {b e'} hb => ?_⟩
  simp only [Dictionary.get?_insert] at hb
  split at hb
  · rename_i hab
    cases hb
    exact he.trans hab
  · exact h.address hb

theorem entities_appendRows (s : Snapshot) (t : Table) (rows : List Row) :
    (s.appendRows t rows).1.entities = s.entities := by
  unfold appendRows
  split
  · rfl
  · simp only
    split <;> rfl

end Snapshot

namespace Connection

/-- Whether the directories of the store and of the copy are sound. -/
def Addressed (c : Connection) : Prop :=
  c.store.committed.Addressed ∧ c.transaction.working.Addressed

variable {c : Connection}

theorem Addressed.advance (h : c.Addressed) (name : String) : (c.advance name).2.Addressed :=
  ⟨h.1.of_entities_eq rfl, h.2.of_entities_eq rfl⟩

theorem Addressed.advanceSequences (h : c.Addressed) (ts : List Table) :
    (c.advanceSequences ts).2.Addressed := by
  induction ts generalizing c with
  | nil => exact h
  | cons t ts ih => exact ih (h.advance t.sequenceName)

theorem Addressed.raiseSequences (h : c.Addressed) (values : List (Table × Int64)) :
    (c.raiseSequences values).Addressed :=
  ⟨h.1, h.2.of_entities_eq
    (Allocator.frame_raiseAll (s := c.transaction.working) values).2⟩

theorem Addressed.bulkLoad (h : c.Addressed) (t : Table) (stream : List UInt8) :
    (c.bulkLoad t stream).2.Addressed := by
  unfold Connection.bulkLoad
  split
  · exact h
  · split
    · exact h
    · exact ⟨h.1, h.2.of_entities_eq (Snapshot.entities_appendRows ..)⟩

theorem Addressed.resolve (h : c.Addressed) (a : Address) (v : Int64) :
    (c.resolve a v).2.Addressed := by
  unfold Connection.resolve
  split
  · exact h
  · obtain ⟨hs, hw⟩ := h.advance entitySequence
    refine ⟨hs, hw.insert ?_⟩
    split <;> rfl

theorem Addressed.commit (h : c.Addressed) : c.commit.committed.Addressed :=
  h.2.of_entities_eq (World.commit_frame ⟨c.store.committed, c.transaction.working⟩).2

end Connection

namespace OpenStore

/-- Whether the directories of the store and of all transactions are sound. -/
structure Addressed (s : OpenStore) : Prop where
  committed : s.store.committed.Addressed
  live {name : String} {t : Transaction} (h : s.live.get? name = some t) : t.working.Addressed

variable {s : OpenStore}

theorem Addressed.withConnection (h : s.Addressed) {c : Connection} (hc : c.Addressed)
    (name : String) : (s.withConnection name c).Addressed := by
  refine ⟨hc.1, fun {name' t} ht => ?_⟩
  simp only [OpenStore.withConnection, Dictionary.get?_insert] at ht
  split at ht
  · cases ht
    exact hc.2
  · exact h.live ht

theorem Addressed.inTransaction (h : s.Addressed) (name : String)
    {f : Connection → StoreAnswer × OpenStore} (hf : ∀ c, c.Addressed → (f c).2.Addressed) :
    (s.inTransaction name f).2.Addressed := by
  unfold OpenStore.inTransaction
  split
  · exact h
  · rename_i t ht
    exact hf _ ⟨h.committed, h.live ht⟩

theorem Addressed.erase (h : s.Addressed) {store : Store} (hs : store.committed.Addressed)
    (name : String) : (OpenStore.mk store (s.live.erase name)).Addressed :=
  ⟨hs, fun ht => h.live (Dictionary.get?_of_get?_erase ht)⟩

theorem Addressed.step (h : s.Addressed) (op : StoreOperation) : (s.step op).2.Addressed := by
  cases op with
  | seed t rows => exact ⟨h.committed.of_entities_eq (Snapshot.entities_appendRows ..), h.live⟩
  | register e =>
    refine ⟨Snapshot.Addressed.insert (s := s.store.committed.raise entitySequence e.id.number)
      (h.committed.of_entities_eq rfl) rfl, h.live⟩
  | rows | sequence | entityCount => exact h
  | failNextCopy => exact ⟨h.committed, h.live⟩
  | begin name => exact h.withConnection (c := ⟨s.store, s.store.begin⟩) ⟨h.committed, h.committed⟩ name
  | next name ts =>
    exact h.inTransaction name fun c hc => h.withConnection (hc.advanceSequences ts) name
  | set name values =>
    exact h.inTransaction name fun c hc => h.withConnection (hc.raiseSequences values) name
  | latest name q => exact h.inTransaction name fun c hc => h
  | copy name t stream =>
    exact h.inTransaction name fun c hc => h.withConnection (hc.bulkLoad t stream) name
  | resolve name a v =>
    exact h.inTransaction name fun c hc => h.withConnection (hc.resolve a v) name
  | commit name => exact h.inTransaction name fun c hc => h.erase hc.commit name
  | rollback name => exact h.inTransaction name fun c hc => h.erase h.committed name

end OpenStore

/-- The recorders of an invocation with the rows that they make. -/
def recordersOf (config : Configuration) (x : LedgerExtension) (s : Snapshot) : List Recorder :=
  if x.isEmpty then []
  else match ((prepareRows config x).run.calm s.idle).1 with
    | .ok made => made.2.1
    | .error _ => []

/-- The rows that recorders write to a table, in the order in which they are written. -/
def rowsFor (rs : List Recorder) (name : String) : List Row :=
  ((rs.flatMap Recorder.batches).filter (·.table.name = name)).flatMap Batch.written

/-- The addresses that the events of an extension demand, in order. -/
def addressesOf (config : Configuration) (x : LedgerExtension) : List Address :=
  (x.events.flatMap (demandsOf config.domains.enabled)).map (·.1)

/-- Rows and directory are as they were, and the sequences have gone forward by no more than `n`. -/
structure Snapshot.Kept (n : Nat) (s s' : Snapshot) : Prop where
  rows (name : String) : s'.rows name = s.rows name
  entities : s'.entities = s.entities
  sequence (name : String) : ∃ k ≤ n, s'.sequence name = s.sequence name + Int64.ofNat k
  forward (name : String) (h : (s.sequence name).toInt + n < 2 ^ 63) :
    s.sequence name ≤ s'.sequence name

/-- The rows of every table stand in front of its new ones, and the directory has grown by the
addresses that are new. -/
structure Snapshot.Grown (addresses : List Address) (s s' : Snapshot) : Prop where
  rows (name : String) : s.rows name <+: s'.rows name
  entities : s.entities.entries <+: s'.entities.entries
  addresses : s'.entities.keys = s.entities.keys
    ++ (LatestLookup.distinctKeys addresses).filter (· ∉ s.entities.keys)

theorem World.Advanced.kept {n : Nat} {w w' : World} (h : w.Advanced n w') :
    w.committed.Kept n w'.committed := by
  refine ⟨fun name => ?_, h.entities, h.sequence, fun name hroom => ?_⟩
  · simp only [Snapshot.rows, Snapshot.table, h.tables]
  · obtain ⟨k, hk, he⟩ := h.sequence name
    rw [he, Int64.le_iff_toInt_le, toInt_add_ofNat (by omega)]
    omega

theorem grown_of_calm {config : Configuration} {x : LedgerExtension} {s : Snapshot}
    {report : InvocationReport} {w' : World} (hs : s.Addressed) (hx : x.isEmpty = false)
    (h : (recordExtension config x).calm s.idle = (.ok report, w')) :
    s.Grown (addressesOf config x) w'.committed := by
  obtain ⟨rs, a, reads, hrec⟩ := recorded_of_calm hs hx rfl h
  refine ⟨fun name => ⟨_, (hrec.rows_eq name).symm⟩, ?_, ?_⟩
  · rw [hrec.entities_eq]
    have hadv := World.entries_demandAll (w := s.idle.advanceAll
      (config.domains.tables.map (·.sequenceName))) (x.events.flatMap (demandsOf config.domains.enabled))
    rwa [(s.idle.working_advanceAll _).2] at hadv
  · rw [hrec.entities_eq, World.prepared, World.keys_demandAll, (s.idle.working_advanceAll _).2]
    rfl

/-- An extension with one change of the metadata of one account. -/
def sampleExtension : LedgerExtension :=
  ⟨[⟨1, [⟨⟨"account_a", by decide⟩, .metadataEntry "name" (some [1]) false⟩]⟩]⟩

/-- The rows that the sample has for metadata. -/
def sampleRows : NewRows Metadata.domain :=
  ⟨[⟨1, 1, ⟨1⟩, ⟨"name", some [1], false⟩⟩], [⟨1, 1, ⟨1⟩, ⟨[1]⟩, none⟩], []⟩

theorem made_sample : ListKind.metadata.made {} (Snapshot.nextIds {})
    (Snapshot.numbering {} {} sampleExtension) sampleExtension.events = .ok sampleRows := by
  with_unfolding_all rfl

theorem storable_sample : ListKind.metadata.Storable sampleRows := by
  refine ⟨fun x hx => ?_, fun a ha => ?_, nofun⟩
  · rw [List.mem_singleton.1 hx]
    exact ⟨⟨_, rfl⟩, _, rfl⟩
  · rw [List.mem_singleton.1 ha]
    exact ⟨⟨_, rfl⟩, _, rfl⟩

theorem admits_sample : Snapshot.Admits {} (fun _ => {}) {} sampleExtension where
  routable y hy := by
    rw [List.mem_singleton.1 hy]
    exact ⟨.metadata, rfl, fun _ => nofun⟩
  lists k _ := by
    cases k with
    | metadata => exact ⟨_, made_sample, storable_sample⟩
    | roleAssignment | methodRoyalty | resourcePreference | authorizedDepositor =>
      exact ⟨{}, rfl, nofun, nofun, fun _ _ => nofun⟩
  plain k _ := by
    cases k <;> exact nofun

/-- The rows that the sample has for each domain with lists. -/
def sampleChronicles : Chronicles
  | .metadata => sampleRows
  | .roleAssignment => {}
  | .methodRoyalty => {}
  | .resourcePreference => {}
  | .authorizedDepositor => {}

/-- Whether a state may be the one that the sample alone was recorded in. -/
structure Snapshot.Sampled (s : Snapshot) : Prop where
  sound : s.Sound 3
  chronicled : s.Chronicled sampleChronicles
  plain (k : PlainKind) : s.rows k.domain.table.name = []
  entities : s.entities = ((Snapshot.idle {}).prepared {} sampleExtension).working.entities
  nextIds {t : Table} (ht : t ∈ DomainSwitches.tables {}) : s.nextIds t.name = 2

theorem exists_sampled : ∃ report w,
    (recordExtension {} sampleExtension).calm (Snapshot.idle {}) = (.ok report, w)
      ∧ w.committed.Sampled := by
  have hempty := Snapshot.records_empty.chronicled
  obtain ⟨report, w, hcalm⟩ := (calm_recordExtension_isOk_iff Snapshot.sound_empty hempty.recalls
    (by decide) rfl).2 admits_sample
  obtain ⟨bss, hout, hg⟩ := gained_of_calm Snapshot.sound_empty hempty.recalls (by decide) rfl hcalm
  have hc := completed_of_calm Snapshot.sound_empty hempty (by decide) rfl hcalm
  refine ⟨report, w, hcalm, hc.sound, ⟨fun k => ?_, fun k => ?_, fun k => ?_⟩, fun k => ?_,
    hc.entities, fun {t} ht => ?_⟩
  · cases k with
    | metadata => exact hc.lists (k := .metadata) (by decide) made_sample
    | roleAssignment | methodRoyalty | resourcePreference | authorizedDepositor =>
      exact hc.lists (R := {}) (by decide) rfl
  · cases k with
    | metadata => exact ⟨List.pairwise_singleton _ _, List.pairwise_singleton _ _, .nil⟩
    | roleAssignment | methodRoyalty | resourcePreference | authorizedDepositor =>
      exact ⟨.nil, .nil, .nil⟩
  · cases k with
    | metadata => exact fun a ha _ => by rw [List.mem_singleton.1 ha]
    | roleAssignment | methodRoyalty | resourcePreference | authorizedDepositor => exact nofun
  · cases k <;> exact hc.plain (by decide)
  · -- no table has more than one row, and those without any have passed an id over
    obtain ⟨b, hb, rfl⟩ := List.mem_map.1 (tables_outcomes hout ▸ ht)
    have hcount : b.rows.length - 1 = 0 := Nat.sub_eq_zero_of_le (mem_outcomes hout hb).2
    rw [hg.nextIds_eq hb, hcount]
    rfl

/-- An extension that gives the account of the sample two more entries, and another account a default
rule. In the next version it removes one of these entries and changes the first one of all. -/
def amendingSample : LedgerExtension :=
  ⟨[⟨2, [⟨⟨"account_a", by decide⟩, .metadataEntry "url" (some [7]) false⟩,
      ⟨⟨"account_g", by decide⟩, .defaultDepositRule .accept⟩,
      ⟨⟨"account_a", by decide⟩, .metadataEntry "tags" (some [9]) false⟩]⟩,
    ⟨3, [⟨⟨"account_a", by decide⟩, .metadataEntry "url" none false⟩,
      ⟨⟨"account_a", by decide⟩, .metadataEntry "name" (some [2]) false⟩]⟩]⟩

/-- The rows that it adds for metadata. -/
def amendingRows : NewRows Metadata.domain :=
  ⟨[⟨2, 2, ⟨1⟩, ⟨"url", some [7], false⟩⟩, ⟨3, 2, ⟨1⟩, ⟨"tags", some [9], false⟩⟩,
      ⟨4, 3, ⟨1⟩, ⟨"url", none, false⟩⟩, ⟨5, 3, ⟨1⟩, ⟨"name", some [2], false⟩⟩],
    [⟨2, 2, ⟨1⟩, ⟨[3, 2, 1]⟩, none⟩, ⟨3, 3, ⟨1⟩, ⟨[5, 3]⟩, none⟩], []⟩

theorem made_amendingSample {start : String → Int64} {number : Numbering}
    (hn : number ⟨"account_a", by decide⟩ = ⟨1⟩) (he : start Metadata.entryTable.name = 2)
    (ha : start Metadata.domain.aggregateSchema.table.name = 2) :
    ListKind.metadata.made sampleRows start number amendingSample.events = .ok amendingRows := by
  have hmetadata : ListKind.metadata.domain.name ∈ [DomainName.metadata] := List.mem_cons_self
  have hnumber : ∀ y ∈ amendingSample.events, ∀ q ∈ demandsOf [.metadata] y, number q.1 = ⟨1⟩ := by
    intro y hy q hq
    have haccount : q.1 = ⟨"account_a", by decide⟩ := by
      revert y q
      decide
    rw [haccount, hn]
  calc ListKind.metadata.made sampleRows start number amendingSample.events
      = ListKind.metadata.made sampleRows (fun _ => 2) (fun _ => ⟨1⟩) amendingSample.events :=
        ListKind.made_congr hmetadata hnumber (congrArg₂ (FirstIds.mk · · 0) he ha) _
    _ = .ok amendingRows := by with_unfolding_all rfl

theorem storable_amendingRows : ListKind.metadata.Storable amendingRows := by
  refine ⟨?_, ?_, nofun⟩
  · refine List.forall_mem_cons.2 ⟨?_, List.forall_mem_cons.2 ⟨?_, List.forall_mem_cons.2
      ⟨?_, List.forall_mem_singleton.2 ?_⟩⟩⟩ <;> exact ⟨⟨_, rfl⟩, _, rfl⟩
  · refine List.forall_mem_cons.2 ⟨?_, List.forall_mem_singleton.2 ?_⟩ <;>
      exact ⟨⟨_, rfl⟩, _, rfl⟩

namespace Snapshot.Sampled

variable {s : Snapshot} (hs : s.Sampled)

include hs

theorem get?_account : s.entities.get? ⟨"account_a", by decide⟩
    = some ⟨⟨"account_a", by decide⟩, ⟨1⟩, some ⟨"account_a", by decide⟩, 1⟩ := by
  rw [hs.entities]
  with_unfolding_all rfl

theorem made_amending : ListKind.metadata.made sampleRows s.nextIds (s.numbering {} amendingSample)
    amendingSample.events = .ok amendingRows :=
  made_amendingSample (Routing.numbering_of_get? (get?_prepared_of_some hs.get?_account))
    (hs.nextIds (by decide)) (hs.nextIds (by decide))

theorem admits_amending : s.Admits sampleChronicles {} amendingSample where
  routable y hy := by
    obtain ⟨d, hd, hnone⟩ : ∃ d, y.2.substate.domain? = some d ∧ y.2.substate.mentions = [] := by
      revert y
      decide
    exact ⟨d, hd, fun _ a ha => by rw [hnone] at ha; cases ha⟩
  lists k _ := by
    cases k with
    | metadata => exact ⟨_, hs.made_amending, storable_amendingRows⟩
    | roleAssignment | methodRoyalty | resourcePreference | authorizedDepositor =>
      exact ⟨{}, rfl, nofun, nofun, fun _ _ => nofun⟩
  plain k _ := by
    cases k with
    | defaultDepositRule => exact List.forall_mem_singleton.2 ⟨⟨_, rfl⟩, _, rfl⟩
    | componentState => exact nofun

theorem exists_amended : ∃ report w,
    (recordExtension {} amendingSample).calm s.idle = (.ok report, w)
      ∧ s.Completed 3 sampleChronicles {} amendingSample w.committed := by
  obtain ⟨report, w, hcalm⟩ := (calm_recordExtension_isOk_iff hs.sound hs.chronicled.recalls
    (by decide) rfl).2 hs.admits_amending
  exact ⟨report, w, hcalm, completed_of_calm hs.sound hs.chronicled (by decide) rfl hcalm⟩

end Snapshot.Sampled

end LedgerHistory
