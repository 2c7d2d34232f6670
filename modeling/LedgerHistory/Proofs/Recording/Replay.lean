import LedgerHistory.Proofs.Recording.Acceptance
import LedgerHistory.Proofs.Recording.AsOf

/-!
# Recording what was recorded

The aggregates of an extension that was recorded are there when it is recorded again, but a group is
compared with the most recent aggregate of its entity alone, among those that are no more recent than
the events of its domain. So it is at fault unless another one lies between
(`NewRows.fault?_within_eq_none_iff`), and an extension is refused the second time if the first event
of some entity is the last one recorded for it up to the greatest version of the extension
(`History.Reaches.replay_iff`). Events of a single version are always refused
(`LedgerExtension.refusedAgain_of_single`), events of two versions need not be.
-/

namespace LedgerHistory

/-- The columns of a row for the version and the entity. -/
def Row.keyColumns (row : Row) : ColumnValue × ColumnValue := (row.at 1, row.at 2)

/-- Whether no two aggregates of a domain are of one entity and version. -/
def Snapshot.HasDistinctAggregates (s : Snapshot) (k : ListKind) : Prop :=
  ((s.rows k.domain.aggregateSchema.table.name).map Row.keyColumns).Nodup

/-- Whether in some domain no aggregate lies between the first event of some entity and the last of the
events. -/
def LedgerExtension.RefusedAgain (x : LedgerExtension) (ds : List DomainName) (s : Snapshot) : Prop :=
  ∃ k : ListKind, k.domain.name ∈ ds ∧ ∃ y ∈ x.eventsOf k.domain.name,
    (∀ z ∈ x.eventsOf k.domain.name, z.2.entity = y.2.entity → y.1 ≤ z.1)
      ∧ ¬∃ g, s.HasAggregate k y.2.entity g ∧ y.1 < g.stateVersion
        ∧ ∃ z ∈ x.eventsOf k.domain.name, g.stateVersion ≤ z.1

/-! ## Groups that have an aggregate -/

namespace NewRows

variable {d : ListDomain} {C : NewRows d} {g : d.Group} {v : Int64}

theorem Settled.within (h : C.Settled) (bound : Option Int64) : (C.within bound).Settled where
  versions := h.versions.sublist List.filter_sublist
  present hc a ha := h.present hc a (List.mem_filter.1 ha).1

theorem mem_aggregates_within {a : Aggregate} :
    a ∈ (C.within (some v)).aggregates ↔ a ∈ C.aggregates ∧ a.stateVersion ≤ v := by
  simp [NewRows.within, LedgerHistory.within]

/-- A group with an aggregate is not at fault when a more recent one hides that. -/
theorem fault?_within_eq_none_iff (h : C.Settled) (hg : g.1 ∈ C.aggregates.map Aggregate.groupKey)
    (hv : g.1.stateVersion ≤ v) (ht : g.2.singletons = [] ∨ d.singletonTable.isSome) :
    (C.within (some v)).fault? g = none ↔ ∃ a ∈ C.aggregates, a.entity = g.1.entity
      ∧ g.1.stateVersion < a.stateVersion ∧ a.stateVersion ≤ v := by
  have hs := h.within (some v)
  rw [fault?_eq_none_iff]
  constructor
  · rintro ⟨_, hne, _⟩
    obtain ⟨a, ha, hkey⟩ := List.mem_map.1 hg
    have hent : a.entity = g.1.entity := congrArg GroupKey.entity hkey
    have hver : a.stateVersion = g.1.stateVersion := congrArg GroupKey.stateVersion hkey
    obtain ⟨b, hb, hle⟩ := latest?_of_mem hs.versions (mem_aggregates_within.2 ⟨ha, hver ▸ hv⟩)
    rw [hent] at hb
    obtain ⟨hm, he⟩ := mem_of_latest? hb
    obtain ⟨hm, hbv⟩ := mem_aggregates_within.1 hm
    refine ⟨b, hm, he, ?_, hbv⟩
    have hne := mt Int64.toInt_inj.1 (hne b hb)
    rw [hver, Int64.le_iff_toInt_le] at hle
    rw [Int64.lt_iff_toInt_lt]
    omega
  · rintro ⟨a, ha, he, hlt, hle⟩
    obtain ⟨b, hb, hab⟩ := latest?_of_mem hs.versions (mem_aggregates_within.2 ⟨ha, hle⟩)
    rw [he] at hb
    refine ⟨ht, fun b' hb' hver => ?_, fun hc => .inr ⟨b, hb, ?_⟩⟩
    · cases Option.some.inj (hb.symm.trans hb')
      rw [hver, Int64.le_iff_toInt_le] at hab
      rw [Int64.lt_iff_toInt_lt] at hlt
      omega
    · exact hs.present hc b (mem_of_latest? hb).1

end NewRows

/-! ## What a domain makes the second time -/

section Replay

variable {h : History} {n : Nat} {s : Snapshot} {C : Chronicles} {H : Histories}
  {config : Configuration} {x : LedgerExtension} {k : ListKind} (hr : s.Records h C H)
  (hx : (config, x) ∈ h)

include hr hx

/-- What was recorded needs no new numbers. -/
theorem Snapshot.Records.groups_numbering (hk : k.domain.name ∈ config.domains.enabled) :
    k.groups (s.numbering config x) x.events = k.groups s.number x.events := by
  rw [ListKind.groups, ListKind.groups, ListKind.visits_congr hk fun y hy q hq => ?_]
  obtain ⟨e, he⟩ := hr.known _ hx y hy q hq
  rw [Snapshot.number_of_get? he]
  exact Routing.numbering_of_get? (get?_prepared_of_some he)

/-- The groups of what was recorded have aggregates. -/
theorem Snapshot.Records.mem_groupKeys (hk : k.domain.name ∈ config.domains.enabled)
    {g : k.domain.Group} (hg : g ∈ k.groups (s.numbering config x) x.events) :
    g.1 ∈ (C k).aggregates.map Aggregate.groupKey := by
  rw [hr.groupKeys_eq k]
  refine List.mem_map_of_mem (List.mem_flatMap.2 ⟨_, hx, ?_⟩)
  rwa [if_pos hk, ← hr.groups_numbering hx hk]

/-- A domain makes rows of what was recorded when another aggregate lies behind the first event of each
entity. -/
theorem Snapshot.Records.remade_isOk_iff (hs : s.Sound n) (ho : h.InOrder)
    (hroom : n + (1 + 2 * x.eventCount) < 2 ^ 63) (hk : k.domain.name ∈ config.domains.enabled) :
    (∃ R, k.made (C k) s.nextIds (s.numbering config x) x.events = .ok R)
      ↔ ∀ y ∈ x.eventsOf k.domain.name,
        (∀ z ∈ x.eventsOf k.domain.name, z.2.entity = y.2.entity → y.1 ≤ z.1) →
        ∃ g, s.HasAggregate k y.2.entity g ∧ y.1 < g.stateVersion
          ∧ ∃ z ∈ x.eventsOf k.domain.name, g.stateVersion ≤ z.1 := by
  have hkeys : ∀ key, key ∈ (k.groups (s.numbering config x) x.events).map (·.1)
      ↔ ∃ y ∈ x.eventsOf k.domain.name, key = ⟨s.numbering config x y.2.entity, y.1⟩ := fun _ =>
    ListKind.mem_groupKeys_eventsOf _
  have haggregate := fun {y} (hy : y ∈ x.eventsOf k.domain.name) {g : Aggregate} =>
    hr.hasAggregate_iff hs hroom hk hy (g := g)
  rw [ListKind.made, NewRows.rowsAfter_isOk_iff_first (k.pairwise_groups (History.pairwise_events ho hx))
    (k.nodup_groupKeys _ _) fun g _ => ListKind.bare_group g]
  have hfault : ∀ {g y}, g ∈ k.groups (s.numbering config x) x.events →
      y ∈ x.eventsOf k.domain.name → g.1 = ⟨s.numbering config x y.2.entity, y.1⟩ →
      (((C k).within (k.greatest (s.numbering config x) x.events)).fault? g = none
        ↔ ∃ a, s.HasAggregate k y.2.entity a ∧ y.1 < a.stateVersion
          ∧ ∃ z ∈ x.eventsOf k.domain.name, a.stateVersion ≤ z.1) := by
    intro g y hg hy hkey
    have hmem : ∀ {v}, (∃ z ∈ k.visits (s.numbering config x) x.events, z.1.stateVersion = v)
        ↔ ∃ z ∈ x.eventsOf k.domain.name, z.1 = v := by
      intro v
      rw [ListKind.exists_visit_iff]
      simp only [LedgerExtension.mem_eventsOf, and_assoc]
    obtain ⟨z, hz, hv⟩ := hmem.2 ⟨y, hy, rfl⟩
    obtain ⟨m, hm, hle, hattained⟩ := ListKind.greatest_eq hz
    have hgm : g.1.stateVersion ≤ m := by
      rw [hkey]
      exact hv ▸ hle z hz
    rw [hm, NewRows.fault?_within_eq_none_iff (hr.consistent k).settled (hr.mem_groupKeys hx hk hg) hgm
      (ListKind.bare_group g), hkey]
    constructor
    · rintro ⟨a, ha, he, hlt, ham⟩
      obtain ⟨u, hu, huv⟩ := hmem.1 hattained
      exact ⟨a, (haggregate hy).2 ⟨ha, he⟩, hlt, u, hu, huv ▸ ham⟩
    · rintro ⟨a, ha, hlt, u, hu, hau⟩
      obtain ⟨ha, he⟩ := (haggregate hy).1 ha
      obtain ⟨w, hw, hwv⟩ := hmem.2 ⟨u, hu, rfl⟩
      exact ⟨a, ha, he, hlt, Int64.le_trans hau (hwv ▸ hle w hw)⟩
  constructor
  · intro hall y hy hfirst
    obtain ⟨g, hg, hkey⟩ := List.mem_map.1 ((hkeys _).2 ⟨y, hy, rfl⟩)
    exact (hfault hg hy hkey).1 (hall g hg ((hs.isFirst_iff hroom hk hy hkey).2 hfirst))
  · intro hall g hg hfirst
    obtain ⟨y, hy, hkey⟩ := (hkeys _).1 (List.mem_map_of_mem hg)
    exact (hfault hg hy hkey).2 (hall y hy ((hs.isFirst_iff hroom hk hy hkey).1 hfirst))

/-- The aggregates that are made the second time have the keys of others. -/
theorem Snapshot.Records.not_nodup_remade (hk : k.domain.name ∈ config.domains.enabled)
    (hevent : x.eventsOf k.domain.name ≠ []) {R : NewRows k.domain}
    (hR : k.made (C k) s.nextIds (s.numbering config x) x.events = .ok R) :
    ¬((C k ++ R).aggregates.map Aggregate.groupKey).Nodup := by
  obtain ⟨y, hy⟩ := List.exists_mem_of_ne_nil _ hevent
  obtain ⟨g, hg, _⟩ := List.mem_map.1
    ((ListKind.mem_groupKeys_eventsOf (s.numbering config x)).2 ⟨y, hy, rfl⟩)
  rw [NewRows.aggregates_append, List.map_append, (NewRows.tells_rowsAfter hR).aggregates]
  intro hnd
  exact List.disjoint_of_nodup_append hnd (hr.mem_groupKeys hx hk hg) (List.mem_map_of_mem hg)

/-- What was recorded is refused for an invariant if some domain refuses it again. -/
theorem Snapshot.Records.replay_refused_iff (hs : s.Sound n) (ho : h.InOrder)
    (hroom : n + (1 + 2 * x.eventCount) < 2 ^ 63) (hempty : x.isEmpty = false) :
    (∃ d i v violation, ((recordExtension config x).calm s.idle).1
      = .error (.invariantViolation d i v violation)) ↔ x.RefusedAgain config.domains.enabled s := by
  have hrefused := calm_recordExtension_refused_iff hs hr.chronicled.recalls hempty (hr.routable _ hx)
  constructor
  · rintro ⟨d, i, v, violation, he⟩
    obtain ⟨k, hk, e, hmade⟩ := hrefused.1 ⟨d, i, v, violation, _, Prod.ext he rfl⟩
    by_contra hn
    obtain ⟨R, hR⟩ := (hr.remade_isOk_iff hx hs ho hroom hk).2 fun y hy hfirst => by
      by_contra hbehind
      exact hn ⟨k, hk, y, hy, hfirst, hbehind⟩
    rw [hmade] at hR
    cases hR
  · rintro ⟨k, hk, y, hy, hfirst, hbehind⟩
    rcases hmade : k.made (C k) s.nextIds (s.numbering config x) x.events with e | R
    · obtain ⟨d, i, v, violation, w', hcalm⟩ := hrefused.2 ⟨k, hk, e, hmade⟩
      exact ⟨d, i, v, violation, by rw [hcalm]⟩
    · exact absurd ((hr.remade_isOk_iff hx hs ho hroom hk).1 ⟨R, hmade⟩ y hy hfirst) hbehind

end Replay

section Distinct

variable {s : Snapshot} {k : ListKind} {C : NewRows k.domain}

/-- The columns of a row for the key of an aggregate. -/
def GroupKey.columns (key : GroupKey) : ColumnValue × ColumnValue :=
  (.int8 key.stateVersion, .ofEntityId key.entity)

theorem GroupKey.columns_injective : Function.Injective GroupKey.columns := by
  rintro ⟨⟨e⟩, v⟩ ⟨⟨e'⟩, v'⟩ he
  simp only [columns, ColumnValue.ofEntityId, Prod.mk.injEq, ColumnValue.int8.injEq] at he
  rw [he.1, he.2]

theorem Snapshot.Holds.hasDistinctAggregates_iff (hC : s.Holds k C) :
    s.HasDistinctAggregates k ↔ (C.aggregates.map Aggregate.groupKey).Nodup := by
  rw [HasDistinctAggregates, hC.aggregates, List.map_map,
    ← List.nodup_map_iff GroupKey.columns_injective, List.map_map]
  rfl

end Distinct

/-! ## The second time -/

/-- Events of one version are refused a second time. -/
theorem LedgerExtension.refusedAgain_of_single {x : LedgerExtension} {ds : List DomainName}
    {s : Snapshot} {v : Int64} (hv : ∀ y ∈ x.events, y.1 = v) {k : ListKind}
    (hk : k.domain.name ∈ ds) (hx : x.eventsOf k.domain.name ≠ []) : x.RefusedAgain ds s := by
  obtain ⟨y, hy⟩ := List.exists_mem_of_ne_nil _ hx
  have hone : ∀ z ∈ x.eventsOf k.domain.name, z.1 = v := fun z hz => hv z (mem_eventsOf.1 hz).1
  refine ⟨k, hk, y, hy, fun z hz _ => ?_, ?_⟩
  · rw [hone y hy, hone z hz]
    exact Int64.le_refl v
  · rintro ⟨g, _, hlt, z, hz, hle⟩
    rw [hone y hy, Int64.lt_iff_toInt_lt] at hlt
    rw [hone z hz, Int64.le_iff_toInt_le] at hle
    omega

/-- In every state that attempts lead to while no sequence runs out, no two aggregates of a domain are
of one entity and version. What is committed already is refused for an invariant when it is recorded
again if and only if in some recorded domain no aggregate lies between the first event of some entity
and the last of the events. A refusal leaves the rows as they were; otherwise each domain with events
gets a second aggregate of an entity and version. -/
theorem History.Reaches.replay_iff {h : History} {n : Nat} {s : Snapshot} (hs : h.Reaches n s)
    (ho : h.InOrder) {config : Configuration} {x : LedgerExtension} (hx : (config, x) ∈ h)
    (hroom : n + (1 + 2 * x.eventCount) < 2 ^ 63) {t : Session} (ht : t.IsCalm)
    (hstore : t.store.committed = s) :
    (∀ k, s.HasDistinctAggregates k)
      ∧ ((∃ d i v violation, (t.run (recordExtension config x)).1
          = .error (.invariantViolation d i v violation))
        ↔ x.RefusedAgain config.domains.enabled s)
      ∧ (∀ e, (t.run (recordExtension config x)).1 = .error e →
        ∀ name, (t.run (recordExtension config x)).2.store.committed.rows name = s.rows name)
      ∧ ∀ report, (t.run (recordExtension config x)).1 = .ok report →
        ∀ k : ListKind, k.domain.name ∈ config.domains.enabled → x.eventsOf k.domain.name ≠ [] →
        ¬(t.run (recordExtension config x)).2.store.committed.HasDistinctAggregates k := by
  obtain ⟨hsound, C, H, hr⟩ := hs.records ho (by omega)
  rw [Session.run_recordExtension ht, Session.committed_recordExtension ht, hstore]
  refine ⟨fun k => (hr.holds k).hasDistinctAggregates_iff.2 (hr.consistent k).distinct, ?_⟩
  rcases hempty : x.isEmpty with _ | _
  swap
  · have hnone : ∀ d, x.eventsOf d = [] := fun d => by
      rw [LedgerExtension.eventsOf, x.events_eq_nil hempty, List.filter_nil]
    rw [calm_recordExtension_of_isEmpty hempty]
    refine ⟨⟨?_, ?_⟩, ?_, fun _ _ k _ hne => absurd (hnone _) hne⟩
    · rintro ⟨_, _, _, _, he⟩
      cases he
    · rintro ⟨k, _, y, hy, _⟩
      rw [hnone] at hy
      cases hy
    · intro e he
      cases he
  refine ⟨hr.replay_refused_iff hx hsound ho hroom hempty, fun e he name => ?_,
    fun report hok k hk hevent => ?_⟩
  · rcases runs_recordExtension hempty (Script.runs_calm (recordExtension config x) s.idle) with
      ⟨_, hadv⟩ | ⟨⟨report, hok⟩, _⟩
    · exact hadv.kept.rows name
    · rw [hok] at he
      cases he
  · have hc := completed_of_calm hsound hr.chronicled hroom hempty (Prod.ext hok rfl)
    obtain ⟨R, hR, _⟩ := hc.admitted.lists k hk
    rw [(hc.lists hk hR).hasDistinctAggregates_iff]
    show ¬((C k ++ R).aggregates.map Aggregate.groupKey).Nodup
    exact hr.not_nodup_remade hx hk hevent hR

theorem History.Reaches.replay_iff_sample : ∃ (s : Snapshot) (t : Session),
    History.Reaches [({}, sampleExtension)] 3 s ∧ t.IsCalm ∧ t.store.committed = s
      ∧ (∃ d i v violation, (t.run (recordExtension {} sampleExtension)).1
        = .error (.invariantViolation d i v violation))
      ∧ ∀ name, (t.run (recordExtension {} sampleExtension)).2.store.committed.rows name
        = s.rows name := by
  obtain ⟨s, hs, _⟩ := History.Reaches.start.exists_recorded Snapshot.sound_empty
    Snapshot.records_empty.chronicled (by decide) rfl admits_sample
  have hcalm : (Session.mk ⟨s, false⟩ none false [] [] []).IsCalm := ⟨rfl, rfl, rfl⟩
  obtain ⟨_, hiff, hkept, _⟩ := hs.replay_iff (List.pairwise_singleton _ _) (List.mem_singleton_self _)
    (by decide) hcalm rfl
  have hone : ∀ y ∈ sampleExtension.events, y.1 = 1 := by decide
  obtain ⟨d, i, v, violation, he⟩ := hiff.2 (LedgerExtension.refusedAgain_of_single hone
    (k := .metadata) (by decide) (by decide))
  exact ⟨s, _, hs, hcalm, rfl, ⟨d, i, v, violation, he⟩, hkept _ he⟩

def renamedAccount : Address := ⟨"account_d", by decide⟩

/-- An extension that changes the metadata of one account in two versions. -/
def renamedSample : LedgerExtension :=
  ⟨[⟨1, [⟨renamedAccount, .metadataEntry "name" (some [1]) false⟩]⟩,
    ⟨2, [⟨renamedAccount, .metadataEntry "name" (some [2]) false⟩]⟩]⟩

/-- The rows that the sample has for metadata. -/
def renamedRows : NewRows Metadata.domain :=
  ⟨[⟨1, 1, ⟨1⟩, ⟨"name", some [1], false⟩⟩, ⟨2, 2, ⟨1⟩, ⟨"name", some [2], false⟩⟩],
    [⟨1, 1, ⟨1⟩, ⟨[1]⟩, none⟩, ⟨2, 2, ⟨1⟩, ⟨[2]⟩, none⟩], []⟩

theorem made_renamedSample : ListKind.metadata.made {} (Snapshot.nextIds {})
    (Snapshot.numbering {} {} renamedSample) renamedSample.events = .ok renamedRows := by
  with_unfolding_all rfl

theorem storable_renamedRows : ListKind.metadata.Storable renamedRows := by
  refine ⟨fun x hx => ?_, fun a ha => ?_, nofun⟩
  · rcases List.mem_pair.1 hx with rfl | rfl <;> exact ⟨⟨_, rfl⟩, _, rfl⟩
  · rcases List.mem_pair.1 ha with rfl | rfl <;> exact ⟨⟨_, rfl⟩, _, rfl⟩

theorem admits_renamedSample : Snapshot.Admits {} (fun _ => {}) {} renamedSample where
  routable y hy := by
    rcases List.mem_pair.1 hy with rfl | rfl <;> exact ⟨.metadata, rfl, fun _ => nofun⟩
  lists k _ := by
    cases k with
    | metadata => exact ⟨_, made_renamedSample, storable_renamedRows⟩
    | roleAssignment | methodRoyalty | resourcePreference | authorizedDepositor =>
      exact ⟨{}, rfl, nofun, nofun, fun _ _ => nofun⟩
  plain k _ := by
    cases k <;> exact nofun

/-- It is not so that all that is committed already is refused when it is recorded again: the two
versions of the sample are not. -/
theorem not_forall_replay_refused : ¬∀ (h : History) (n : Nat) (s : Snapshot)
    (config : Configuration) (x : LedgerExtension) (t : Session), h.Reaches n s → h.InOrder →
    (config, x) ∈ h → n + (1 + 2 * x.eventCount) < 2 ^ 63 →
    (∃ k : ListKind, k.domain.name ∈ config.domains.enabled ∧ x.eventsOf k.domain.name ≠ []) →
    t.IsCalm → t.store.committed = s →
    ∃ d i v violation, (t.run (recordExtension config x)).1
      = .error (.invariantViolation d i v violation) := by
  intro hall
  obtain ⟨s, hs, hc⟩ := History.Reaches.start.exists_recorded Snapshot.sound_empty
    Snapshot.records_empty.chronicled (by decide) rfl admits_renamedSample
  have ho : History.InOrder [(({} : Configuration), renamedSample)] := by
    unfold History.InOrder
    decide
  have hcalm : (Session.mk ⟨s, false⟩ none false [] [] []).IsCalm := ⟨rfl, rfl, rfl⟩
  have hx := List.mem_singleton_self (({} : Configuration), renamedSample)
  have hviolation := hall _ _ s _ renamedSample _ hs ho hx (by decide) ⟨.metadata, by decide, by decide⟩
    hcalm rfl
  obtain ⟨hsound, C, H, hr⟩ := hs.records ho (by decide)
  rw [Session.run_recordExtension hcalm, hr.replay_refused_iff hx hsound ho (by decide) rfl] at hviolation
  obtain ⟨k, _, y, hy, hfirst, hbehind⟩ := hviolation
  cases k with
  | roleAssignment | methodRoyalty | resourcePreference | authorizedDepositor => cases hy
  | metadata =>
    -- the aggregate of the second version lies between the first event and the last one
    have haggregate : s.HasAggregate .metadata renamedAccount ⟨2, 2, ⟨1⟩, ⟨[2]⟩, none⟩ := by
      refine ⟨⟨renamedAccount, ⟨1⟩, some renamedAccount, 1⟩, Metadata.domain.aggregateRow _, ?_, ?_,
        ListKind.metadata.decode_aggregateRow fun _ => rfl, rfl⟩
      · rw [hc.entities]
        with_unfolding_all rfl
      · rw [(hc.lists (k := .metadata) (by decide) made_renamedSample).aggregates]
        exact List.mem_map_of_mem (List.mem_pair.2 (.inr rfl))
    have hevents : y ∈ renamedSample.events := (LedgerExtension.mem_eventsOf.1 hy).1
    rcases List.mem_pair.1 hevents with rfl | rfl
    · exact hbehind ⟨_, haggregate, by decide, _, List.mem_pair.2 (.inr rfl), by decide⟩
    · exact absurd (hfirst _ List.mem_cons_self rfl) (by decide)

end LedgerHistory
