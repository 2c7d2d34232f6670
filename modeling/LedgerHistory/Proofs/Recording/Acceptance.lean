import LedgerHistory.Proofs.Recording.Fitting
import LedgerHistory.Proofs.Recording.OwnerRoles

/-!
# Which extensions are accepted

A domain with lists makes rows of events that are no older than its own when none of them has an
aggregate already, and when a new entity gets its owner role in its first version
(`Snapshot.Records.made_isOk_iff`). With events that can be routed and rows that can be stored this
is all that it takes, so four conditions tell exactly which extensions are refused
(`History.Reaches.run_isError_iff`).
-/

namespace LedgerHistory

/-- The resource that a change of a deposit rule names. -/
def Substate.resource? : Substate → Option Address
  | .resourcePreference resource _ => some resource
  | .authorizedDepositor badge _ => some badge.resourceAddress
  | _ => none

/-- Whether an aggregate is that of an address, and its row among those of a domain. -/
def Snapshot.HasAggregate (s : Snapshot) (k : ListKind) (a : Address) (g : Aggregate) : Prop :=
  ∃ e row, s.entities.get? a = some e ∧ row ∈ s.rows k.domain.aggregateSchema.table.name
    ∧ k.domain.aggregateSchema.decode row = .ok g ∧ g.entity = e.id

namespace LedgerExtension

variable (x : LedgerExtension) (ds : List DomainName) (s : Snapshot)

def eventsOf (d : DomainName) : List (Int64 × SubstateEvent) :=
  x.events.filter (·.2.substate.domain? = some d)

/-- Whether some event is of an unknown type. -/
def HasUnknown : Prop := ∃ y ∈ x.events, y.2.substate = .unknown

/-- Whether some event of a recorded domain names a resource with an internal address. -/
def NamesInternal : Prop :=
  ∃ d ∈ ds, ∃ y ∈ x.eventsOf d, ∃ a, y.2.substate.resource? = some a
    ∧ Address.internalMark.toList <+: a.text.toList

/-- Whether some event of a recorded domain with lists is of an entity that has an aggregate of its
version already. -/
def Repeats : Prop :=
  ∃ k : ListKind, k.domain.name ∈ ds ∧ ∃ y ∈ x.eventsOf k.domain.name, ∃ g,
    s.HasAggregate k y.2.entity g ∧ g.stateVersion = y.1

/-- Whether role assignments are recorded and some entity of theirs has neither an aggregate nor an
event that sets its owner role in the first of its versions. -/
def LacksOwner : Prop :=
  .roleAssignment ∈ ds ∧ ∃ y ∈ x.eventsOf .roleAssignment,
    (∀ g, ¬s.HasAggregate .roleAssignment y.2.entity g)
      ∧ (∀ z ∈ x.eventsOf .roleAssignment, z.2.entity = y.2.entity → y.1 ≤ z.1)
      ∧ ∀ z ∈ x.eventsOf .roleAssignment, z.2.entity = y.2.entity → z.1 = y.1 →
        z.2.substate.ownerRole? = none

variable {x ds}

theorem mem_eventsOf {d : DomainName} {y : Int64 × SubstateEvent} :
    y ∈ x.eventsOf d ↔ y ∈ x.events ∧ y.2.substate.domain? = some d := by
  simp [eventsOf]

end LedgerExtension

/-! ## Events that can be routed -/

section Routable

variable {x : LedgerExtension} {ds : List DomainName} {a : Address} {t : Substate}

theorem Address.isGlobal_iff : a.isGlobal ↔ ¬internalMark.toList <+: a.text.toList := by
  rw [isGlobal, Bool.not_eq_true', ← Bool.not_eq_true, List.isPrefixOf_iff_prefix]

theorem Substate.mentions_eq (t : Substate) : t.mentions = t.resource?.toList := by cases t <;> rfl

theorem Substate.domain?_eq_none_iff : t.domain? = none ↔ t = .unknown := by
  cases t <;> simp [domain?]

theorem LedgerExtension.routable_iff : (∀ y ∈ x.events, y.2.IsRoutable ds)
    ↔ ¬x.HasUnknown ∧ ¬x.NamesInternal ds := by
  constructor
  · intro h
    constructor
    · rintro ⟨y, hy, hu⟩
      obtain ⟨d, hd, _⟩ := h y hy
      rw [hu] at hd
      cases hd
    · rintro ⟨d, hm, y, hy, a, ha, hi⟩
      obtain ⟨hy, hd⟩ := mem_eventsOf.1 hy
      obtain ⟨d', hd', hglobal⟩ := h y hy
      obtain rfl := Option.some.inj (hd.symm.trans hd')
      refine Address.isGlobal_iff.1 (hglobal hm a ?_) hi
      rw [Substate.mentions_eq, ha]
      exact List.mem_singleton_self a
  · rintro ⟨hu, hi⟩ y hy
    rcases hd : y.2.substate.domain? with _ | d
    · exact absurd ⟨y, hy, Substate.domain?_eq_none_iff.1 hd⟩ hu
    · refine ⟨d, hd, fun hm a ha => Address.isGlobal_iff.2 fun hp => hi ?_⟩
      rw [Substate.mentions_eq, Option.mem_toList] at ha
      exact ⟨d, hm, y, mem_eventsOf.2 ⟨hy, hd⟩, a, ha, hp⟩

end Routable

/-! ## Domains that make their rows -/

section Groups

variable {n : Nat} {s : Snapshot} {config : Configuration} {x : LedgerExtension} {k : ListKind}

/-- A group has singletons when some event of its key means one. -/
theorem ListKind.singletons_ne_nil_iff {number : Numbering} {xs : List (Int64 × SubstateEvent)}
    {g : k.domain.Group} (hg : g ∈ k.groups number xs) : g.2.singletons ≠ []
      ↔ ∃ z ∈ xs, (k.singletonChange? number z).isSome ∧ g.1 = ⟨number z.2.entity, z.1⟩ := by
  have hmem := (GroupedChanges.mem_group hg).2
  constructor
  · intro hne
    obtain ⟨v, hv⟩ := List.exists_mem_of_ne_nil _ hne
    obtain ⟨z, hz, hm, hkey⟩ := mem_visits_iff.1 ((hmem v).1 hv)
    exact ⟨z, hz, by simp [singletonChange?, hm, Meaning.singleton?], hkey⟩
  · rintro ⟨z, hz, hsome, hkey⟩
    rw [singletonChange?, Option.isSome_map] at hsome
    obtain ⟨v, hv⟩ := Option.isSome_iff_exists.1 hsome
    obtain ⟨m, hm, hv⟩ := Option.bind_eq_some_iff.1 hv
    cases m with
    | entry c => cases hv
    | singleton v' =>
      cases hv
      exact List.ne_nil_of_mem ((hmem v).2 (mem_visits_iff.2 ⟨z, hz, hm, hkey⟩))

/-- The groups of a domain are those of its events. -/
theorem ListKind.mem_groupKeys_eventsOf (number : Numbering) {key : GroupKey} :
    key ∈ (k.groups number x.events).map (·.1)
      ↔ ∃ y ∈ x.eventsOf k.domain.name, key = ⟨number y.2.entity, y.1⟩ := by
  rw [k.mem_groupKeys]
  simp only [LedgerExtension.mem_eventsOf, and_assoc]

/-- The entities of a recorded domain's events are in the directory once these are prepared. -/
theorem get?_prepared {d : DomainName} (hd : d ∈ config.domains.enabled) {y : Int64 × SubstateEvent}
    (hy : y ∈ x.eventsOf d) :
    ∃ e, (s.idle.prepared config x).working.entities.get? y.2.entity = some e := by
  obtain ⟨hy, hdom⟩ := LedgerExtension.mem_eventsOf.1 hy
  exact World.exists_get?_demandAll (List.mem_flatMap.2 ⟨y, hy, (mem_demandsOf hdom hd).1⟩)

variable {h : History} {C : Chronicles} {H : Histories} (hs : s.Sound n)
  (hroom : n + (1 + 2 * x.eventCount) < 2 ^ 63) (hk : k.domain.name ∈ config.domains.enabled)

include hs hroom

/-- Numbers tell the entities of events apart. -/
theorem Snapshot.Sound.numbering_inj {a b : Address}
    (ha : ∃ e, (s.idle.prepared config x).working.entities.get? a = some e)
    (hb : ∃ e, (s.idle.prepared config x).working.entities.get? b = some e) :
    s.numbering config x a = s.numbering config x b ↔ a = b :=
  ⟨(hs.prepared config hroom).number_inj ha hb, congrArg _⟩

include hk

/-- The aggregates of an event's entity are those with its number. -/
theorem Snapshot.Records.hasAggregate_iff (hr : s.Records h C H) {y : Int64 × SubstateEvent}
    (hy : y ∈ x.eventsOf k.domain.name) {g : Aggregate} : s.HasAggregate k y.2.entity g
      ↔ g ∈ (C k).aggregates ∧ g.entity = s.numbering config x y.2.entity := by
  have hrows := (hr.holds k).aggregates
  constructor
  · rintro ⟨e, row, he, hrow, hdecode, hg⟩
    rw [hrows] at hrow
    obtain ⟨g', hg', rfl⟩ := List.mem_map.1 hrow
    rw [k.decode_aggregateRow ((hr.consistent k).bare g' hg')] at hdecode
    cases hdecode
    exact ⟨hg', hg.trans (Routing.numbering_of_get? (get?_prepared_of_some he)).symm⟩
  · rintro ⟨hg, hentity⟩
    obtain ⟨p, hp, hkp, z, hz, hd, hkey⟩ := hr.event_of_aggregate hg
    obtain ⟨e, he⟩ := hr.known p hp z hz _ (mem_demandsOf hd hkp).1
    have hge : g.entity = e.id :=
      (congrArg GroupKey.entity hkey).trans (Snapshot.number_of_get? he)
    have hprep : (s.idle.prepared config x).working.entities.get? z.2.entity = some e :=
      get?_prepared_of_some he
    have hsame : z.2.entity = y.2.entity := by
      refine (hs.numbering_inj hroom ⟨e, hprep⟩ (get?_prepared hk hy)).1 ?_
      rw [← hentity, hge]
      exact Routing.numbering_of_get? hprep
    rw [← hsame]
    refine ⟨e, k.domain.aggregateRow g, he, ?_, k.decode_aggregateRow ((hr.consistent k).bare g hg),
      hge⟩
    rw [hrows]
    exact List.mem_map_of_mem hg

/-- A group is the first of its entity when no event of the entity is older. -/
theorem Snapshot.Sound.isFirst_iff {g : k.domain.Group} {y : Int64 × SubstateEvent}
    (hy : y ∈ x.eventsOf k.domain.name) (hkey : g.1 = ⟨s.numbering config x y.2.entity, y.1⟩) :
    NewRows.IsFirst (k.groups (s.numbering config x) x.events) g
      ↔ ∀ z ∈ x.eventsOf k.domain.name, z.2.entity = y.2.entity → y.1 ≤ z.1 := by
  constructor
  · intro hfirst z hz he
    obtain ⟨g', hg', hkz⟩ := List.mem_map.1 ((ListKind.mem_groupKeys_eventsOf _).2 ⟨z, hz, rfl⟩)
    have hle := hfirst g' hg' (by rw [hkz, hkey, he])
    rwa [hkz, hkey] at hle
  · intro hfirst g' hg' he
    obtain ⟨z, hz, hkz⟩ := (ListKind.mem_groupKeys_eventsOf _).1 (List.mem_map_of_mem hg')
    rw [hkey, hkz] at he ⊢
    exact hfirst z hz ((hs.numbering_inj hroom (get?_prepared hk hz) (get?_prepared hk hy)).1 he)

/-- The groups of a domain's events are admitted when no entity of theirs has an aggregate of the
version already, and every entity without aggregates gets the singleton that it needs in its first
version. -/
theorem Snapshot.Records.admits_groups_iff (hr : s.Records h C H) :
    (C k).Admits (k.groups (s.numbering config x) x.events)
      ↔ (∀ y ∈ x.eventsOf k.domain.name, ∀ g, s.HasAggregate k y.2.entity g → g.stateVersion ≠ y.1)
        ∧ (k.domain.aggregateSchema.singletonColumn.isSome → ∀ y ∈ x.eventsOf k.domain.name,
          (∀ g, ¬s.HasAggregate k y.2.entity g) →
          (∀ z ∈ x.eventsOf k.domain.name, z.2.entity = y.2.entity → y.1 ≤ z.1) →
          ∃ z ∈ x.eventsOf k.domain.name, z.2.entity = y.2.entity ∧ z.1 = y.1
            ∧ (k.singletonChange? (s.numbering config x) z).isSome) := by
  have hkeys : ∀ key, key ∈ (k.groups (s.numbering config x) x.events).map (·.1)
      ↔ ∃ y ∈ x.eventsOf k.domain.name, key = ⟨s.numbering config x y.2.entity, y.1⟩ := fun _ =>
    ListKind.mem_groupKeys_eventsOf _
  have hinj : ∀ {y z}, y ∈ x.eventsOf k.domain.name → z ∈ x.eventsOf k.domain.name →
      (s.numbering config x z.2.entity = s.numbering config x y.2.entity
        ↔ z.2.entity = y.2.entity) := fun hy hz =>
    hs.numbering_inj hroom (get?_prepared hk hz) (get?_prepared hk hy)
  have haggregate := fun {y} (hy : y ∈ x.eventsOf k.domain.name) {g : Aggregate} =>
    hr.hasAggregate_iff hs hroom hk hy (g := g)
  constructor
  · intro hadm
    refine ⟨fun y hy g hg hv => ?_, fun hc y hy hnone hfirst => ?_⟩
    · obtain ⟨hg, hentity⟩ := (haggregate hy).1 hg
      obtain ⟨g', hg', hkey⟩ := List.mem_map.1 ((hkeys _).2 ⟨y, hy, rfl⟩)
      refine hadm.fresh g' hg' (List.mem_map.2 ⟨g, hg, ?_⟩)
      rw [hkey, Aggregate.groupKey, hentity, hv]
    · obtain ⟨g, hg, hkey⟩ := List.mem_map.1 ((hkeys _).2 ⟨y, hy, rfl⟩)
      have hne := hadm.founded hc g hg
        (fun a ha he => hnone a ((haggregate hy).2 ⟨ha, by rw [he, hkey]⟩)) ((hs.isFirst_iff hroom hk hy hkey).2 hfirst)
      obtain ⟨z, hz, hsome, hkz⟩ := (ListKind.singletons_ne_nil_iff hg).1 hne
      rw [hkey] at hkz
      have hz : z ∈ x.eventsOf k.domain.name := by
        obtain ⟨w, hw⟩ := Option.isSome_iff_exists.1 hsome
        exact LedgerExtension.mem_eventsOf.2 ⟨hz, (ListKind.domain_of_singletonChange hw).1⟩
      exact ⟨z, hz, (hinj hy hz).1 (congrArg GroupKey.entity hkz).symm,
        (congrArg GroupKey.stateVersion hkz).symm, hsome⟩
  · rintro ⟨hfresh, hfounded⟩
    refine ⟨fun g hg hm => ?_, fun hc g hg hnone hfirst => ?_⟩
    · obtain ⟨y, hy, hkey⟩ := (hkeys _).1 (List.mem_map_of_mem hg)
      obtain ⟨a, ha, hka⟩ := List.mem_map.1 hm
      rw [hkey] at hka
      exact hfresh y hy a ((haggregate hy).2
        ⟨ha, congrArg GroupKey.entity hka⟩) (congrArg GroupKey.stateVersion hka)
    · obtain ⟨y, hy, hkey⟩ := (hkeys _).1 (List.mem_map_of_mem hg)
      have hbare : ∀ a, ¬s.HasAggregate k y.2.entity a := fun a ha => by
        obtain ⟨ha, hentity⟩ := (haggregate hy).1 ha
        exact hnone a ha (by rw [hentity, hkey])
      obtain ⟨z, hz, he, hv, hsome⟩ :=
        hfounded hc y hy hbare ((hs.isFirst_iff hroom hk hy hkey).1 hfirst)
      refine (ListKind.singletons_ne_nil_iff hg).2
        ⟨z, (LedgerExtension.mem_eventsOf.1 hz).1, hsome, ?_⟩
      rw [hkey, he, hv]

end Groups

/-- A domain makes rows of events that are no older than its own when their groups are admitted. -/
theorem Snapshot.Records.made_isOk_iff {h : History} {s : Snapshot} {C : Chronicles} {H : Histories}
    {config : Configuration} {x : LedgerExtension} (hr : s.Records h C H)
    (ho : History.InOrder (h ++ [(config, x)])) (k : ListKind) (number : Numbering) :
    (∃ R, k.made (C k) s.nextIds number x.events = .ok R)
      ↔ (C k).Admits (k.groups number x.events) := by
  rw [hr.made_eq ho]
  exact NewRows.rowsAfter_isOk_iff (hr.consistent k).settled (k.pairwise_groups ho.last)
    (k.nodup_groupKeys number x.events) (hr.until_groups ho) fun g _ => ListKind.bare_group g

/-! ## Rows that can be stored -/

section Storable

variable {h : History} {n : Nat} {s : Snapshot} {C : Chronicles} {H : Histories}
  {config : Configuration} {x : LedgerExtension} {bss : List (List Batch)}

/-- Domains that all make their rows make batches, and these are written by the recorders. -/
theorem Snapshot.Records.exists_outcomes (hs : s.Addressed) (hr : s.Records h C H)
    (hempty : x.isEmpty = false) (hroute : ∀ y ∈ x.events, y.2.IsRoutable config.domains.enabled)
    (hmade : ∀ k : ListKind, k.domain.name ∈ config.domains.enabled →
      ∃ R, k.made (C k) s.nextIds (s.numbering config x) x.events = .ok R) :
    ∃ bss, outcomes s C config x = .ok bss
      ∧ (recordersOf config x s).flatMap Recorder.batches = bss.flatten := by
  have hprep := calm_prepareRows_outcome hs hr.chronicled.recalls hroute
  rcases hout : outcomes s C config x with e | bss
  · obtain ⟨d, hd, he⟩ := exists_eq_error_of_mapM hout
    rcases d.eq_name with ⟨k, rfl⟩ | ⟨k, rfl⟩
    · obtain ⟨R, hR⟩ := hmade k hd
      rw [k.outcome_name, hR] at he
      cases he
    · rw [k.outcome_name] at he
      cases he
  · rw [hout] at hprep
    obtain ⟨known, rs, a, hprep, hbatches, _⟩ := hprep
    have hrs : recordersOf config x s = rs := by
      rw [recordersOf, hempty, if_neg Bool.false_ne_true, hprep]
    exact ⟨bss, rfl, by rw [hrs, hbatches]⟩

/-- Events are recorded when they can be routed and the domains make their rows, if no field is too
long and all documents are read back. -/
theorem Snapshot.Records.admits_iff_of_short (hs : s.Sound n) (hr : s.Records h C H)
    (ho : History.InOrder (h ++ [(config, x)])) (hroom : n + (1 + 2 * x.eventCount) < 2 ^ 63)
    (hempty : x.isEmpty = false) (hx : x.IsFaithful)
    (hshort : ∀ name, ∀ row ∈ rowsFor (recordersOf config x s) name, row.IsShort) :
    s.Admits C config x ↔ (∀ y ∈ x.events, y.2.IsRoutable config.domains.enabled)
      ∧ ∀ k : ListKind, k.domain.name ∈ config.domains.enabled →
        ∃ R, k.made (C k) s.nextIds (s.numbering config x) x.events = .ok R := by
  constructor
  · intro ha
    refine ⟨ha.routable, fun k hk => ?_⟩
    obtain ⟨R, hR, _⟩ := ha.lists k hk
    exact ⟨R, hR⟩
  · rintro ⟨hroute, hmade⟩
    obtain ⟨bss, hout, hbatches⟩ := hr.exists_outcomes hs.addressed hempty hroute hmade
    have hshort : ∀ b ∈ bss.flatten, ∀ row ∈ b.written, row.IsShort := by
      intro b hb row hrow
      refine hshort b.table.name row (List.mem_flatMap.2 ⟨b, List.mem_filter.2 ⟨?_, by simp⟩, hrow⟩)
      rwa [hbatches]
    refine ⟨hroute, fun k hk => ?_, fun k hk => ?_⟩
    · obtain ⟨R, hR⟩ := hmade k hk
      obtain ⟨bs, hbs, hd⟩ := exists_outcome hout hk
      rw [k.outcome_name, hR] at hd
      cases hd
      have hconsistent := hr.consistent_made hs ho hroom hR
      refine ⟨R, hR, ListKind.storable_made hx hR (fun hc a ha => ?_) fun b hb => ?_⟩
      · exact hconsistent.present hc a (List.mem_append_right _ ha)
      · exact hshort b (List.mem_flatten.2 ⟨_, hbs, hb⟩)
    · obtain ⟨bs, hbs, hd⟩ := exists_outcome hout hk
      rw [k.outcome_name] at hd
      cases hd
      exact PlainKind.storable_made hx fun b hb => hshort b (List.mem_flatten.2 ⟨_, hbs, hb⟩)

/-- Nothing can be wrong with an extension without events. -/
theorem LedgerExtension.flawless_of_isEmpty (hempty : x.isEmpty = true) (ds : List DomainName) :
    ¬x.HasUnknown ∧ ¬x.NamesInternal ds ∧ ¬x.Repeats ds s ∧ ¬x.LacksOwner ds s := by
  have hnil := x.events_eq_nil hempty
  have hnone : ∀ d, x.eventsOf d = [] := fun d => by rw [eventsOf, hnil, List.filter_nil]
  refine ⟨?_, ?_, ?_, ?_⟩
  · rintro ⟨y, hy, _⟩
    rw [hnil] at hy
    cases hy
  · rintro ⟨d, _, y, hy, _⟩
    rw [hnone] at hy
    cases hy
  · rintro ⟨k, _, y, hy, _⟩
    rw [hnone] at hy
    cases hy
  · rintro ⟨_, y, hy, _⟩
    rw [hnone] at hy
    cases hy

theorem calm_recordExtension_of_isEmpty (hempty : x.isEmpty = true) (config : Configuration)
    (w : World) : (recordExtension config x).calm w
      = (.ok { stateVersions := x.stateVersions?, events := x.eventCount }, w) := by
  unfold recordExtension
  rw [if_pos hempty]
  rfl

section Exact

variable (hs : s.Sound n) (hr : s.Records h C H) (ho : History.InOrder (h ++ [(config, x)]))
  (hroom : n + (1 + 2 * x.eventCount) < 2 ^ 63) (hx : x.IsFaithful)
  (hshort : ∀ name, ∀ row ∈ rowsFor (recordersOf config x s) name, row.IsShort)

include hs hr ho hroom hx hshort

/-- Four conditions tell which extensions are not recorded. -/
theorem Snapshot.Records.calm_isOk_iff :
    (∃ report w', (recordExtension config x).calm s.idle = (.ok report, w'))
      ↔ ¬x.HasUnknown ∧ ¬x.NamesInternal config.domains.enabled
        ∧ ¬x.Repeats config.domains.enabled s ∧ ¬x.LacksOwner config.domains.enabled s := by
  rcases hempty : x.isEmpty with _ | _
  swap
  · exact ⟨fun _ => LedgerExtension.flawless_of_isEmpty hempty _,
      fun _ => ⟨_, _, calm_recordExtension_of_isEmpty hempty config s.idle⟩⟩
  have hmade : ∀ k : ListKind, k.domain.name ∈ config.domains.enabled → _ := fun k hk =>
    (hr.made_isOk_iff ho k (s.numbering config x)).trans (hr.admits_groups_iff hs hroom hk)
  rw [calm_recordExtension_isOk_iff hs hr.chronicled.recalls hroom hempty,
    hr.admits_iff_of_short hs ho hroom hempty hx hshort, LedgerExtension.routable_iff, and_assoc]
  refine and_congr_right fun _ => and_congr_right fun _ => ?_
  constructor
  · intro h
    constructor
    · rintro ⟨k, hk, y, hy, g, hg, hv⟩
      exact ((hmade k hk).1 (h k hk)).1 y hy g hg hv
    · rintro ⟨hk, y, hy, hnone, hfirst, hlacks⟩
      obtain ⟨z, hz, he, hv, hsome⟩ :=
        ((hmade .roleAssignment hk).1 (h .roleAssignment hk)).2 rfl y hy hnone hfirst
      rw [ListKind.singletonChange?, Option.isSome_map, Substate.singleton_meaning,
        hlacks z hz he hv] at hsome
      cases hsome
  · rintro ⟨hrepeats, hlacks⟩ k hk
    refine (hmade k hk).2 ⟨fun y hy g hg hv => hrepeats ⟨k, hk, y, hy, g, hg, hv⟩,
      fun hc y hy hnone hfirst => ?_⟩
    cases k with
    | roleAssignment =>
      by_contra hn
      refine hlacks ⟨hk, y, hy, hnone, hfirst, fun z hz he hv => ?_⟩
      by_contra ho
      refine hn ⟨z, hz, he, hv, ?_⟩
      rw [ListKind.singletonChange?, Option.isSome_map, Substate.singleton_meaning]
      exact Option.isSome_iff_ne_none.2 ho
    | metadata | methodRoyalty | resourcePreference | authorizedDepositor => cases hc

/-- Events that can be routed are refused for an invariant, if they are. -/
theorem Snapshot.Records.violation_of_calm
    (hroute : ∀ y ∈ x.events, y.2.IsRoutable config.domains.enabled) {e : InvocationError}
    {w' : World} (he : (recordExtension config x).calm s.idle = (.error e, w')) :
    ∃ d i v violation, e = .invariantViolation d i v violation := by
  have hempty : x.isEmpty = false := by
    rcases hx : x.isEmpty with _ | _
    · rfl
    · rw [calm_recordExtension_of_isEmpty hx] at he
      cases he
  have hmade : ¬∀ k : ListKind, k.domain.name ∈ config.domains.enabled →
      ∃ R, k.made (C k) s.nextIds (s.numbering config x) x.events = .ok R := by
    intro hmade
    obtain ⟨report, w, hcalm⟩ := (calm_recordExtension_isOk_iff hs hr.chronicled.recalls hroom hempty).2
      ((hr.admits_iff_of_short hs ho hroom hempty hx hshort).2 ⟨hroute, hmade⟩)
    rw [hcalm] at he
    cases he
  push Not at hmade
  obtain ⟨k, hk, hno⟩ := hmade
  rcases hm : k.made (C k) s.nextIds (s.numbering config x) x.events with e' | R
  · obtain ⟨d, i, v, violation, w, hcalm⟩ := (calm_recordExtension_refused_iff hs hr.chronicled.recalls
      hempty hroute).2 ⟨k, hk, e', hm⟩
    rw [hcalm] at he
    cases he
    exact ⟨d, i, v, violation, rfl⟩
  · exact absurd hm (hno R)

end Exact

end Storable

/-! ## Sessions in which nothing goes wrong -/

section Session

variable {config : Configuration} {x : LedgerExtension}

/-- What a calm invocation leads to depends on what is committed alone. -/
theorem calm_recordExtension_opened (config : Configuration) (x : LedgerExtension) (w : World) :
    ((recordExtension config x).calm w).1 = ((recordExtension config x).calm w.committed.idle).1
      ∧ ((recordExtension config x).calm w).2.committed
        = ((recordExtension config x).calm w.committed.idle).2.committed := by
  rcases hx : x.isEmpty with _ | _
  · rw [calm_recordExtension hx, calm_recordExtension hx]
    exact ⟨rfl, rfl⟩
  · rw [calm_recordExtension_of_isEmpty hx, calm_recordExtension_of_isEmpty hx]
    exact ⟨rfl, rfl⟩

theorem Session.run_recordExtension {t : Session} (ht : t.IsCalm) :
    (t.run (recordExtension config x)).1
      = ((recordExtension config x).calm t.store.committed.idle).1 := by
  rw [(Session.run_calm _ ht).1, (calm_recordExtension_opened ..).1]
  rfl

theorem Session.committed_recordExtension {t : Session} (ht : t.IsCalm) :
    (t.run (recordExtension config x)).2.store.committed
      = ((recordExtension config x).calm t.store.committed.idle).2.committed :=
  (congrArg World.committed (Session.run_calm _ ht).2).trans (calm_recordExtension_opened ..).2

/-- What holds before the first event that is refused makes it the first found. -/
theorem findSome?_refusal {ds : List DomainName} {before after : List (Int64 × SubstateEvent)}
    {y : Int64 × SubstateEvent} {e : InvocationError} (hb : ∀ z ∈ before, z.2.IsRoutable ds)
    (hy : refusal? ds y = some e) : (before ++ y :: after).findSome? (refusal? ds) = some e := by
  rw [List.findSome?_append, List.findSome?_eq_none_iff.2 fun z hz => refusal?_eq_none_iff.2 (hb z hz),
    Option.none_or, List.findSome?_cons, hy]

end Session

/-- In every state that attempts lead to while no sequence runs out, an extension whose versions go on
from what was committed, with documents that are read back and no field too long, is refused if and
only if an event is of an unknown type, an event of a recorded domain names an internal resource, an
event is of an entity that has an aggregate of its version already, or a new entity of role
assignments gets no owner role in its first version. The first event of the first two kinds tells the
error; without such events it is the violation of an invariant. -/
theorem History.Reaches.run_isError_iff {h : History} {n : Nat} {s : Snapshot}
    (hs : h.Reaches n s) {config : Configuration} {x : LedgerExtension}
    (ho : History.InOrder (h ++ [(config, x)])) (hroom : n + (1 + 2 * x.eventCount) < 2 ^ 63)
    (hx : x.IsFaithful)
    (hshort : ∀ name, ∀ row ∈ rowsFor (recordersOf config x s) name, row.IsShort)
    {t : Session} (ht : t.IsCalm) (hstore : t.store.committed = s) :
    ((∃ e, (t.run (recordExtension config x)).1 = .error e)
        ↔ x.HasUnknown ∨ x.NamesInternal config.domains.enabled
          ∨ x.Repeats config.domains.enabled s ∨ x.LacksOwner config.domains.enabled s)
      ∧ (∀ before y after, x.events = before ++ y :: after →
        (∀ z ∈ before, z.2.IsRoutable config.domains.enabled) →
        (y.2.substate = .unknown → (t.run (recordExtension config x)).1
          = .error (.unsupportedShape none y.2.entity y.1 Substate.unknown.typeName))
        ∧ ∀ d ∈ config.domains.enabled, y.2.substate.domain? = some d →
          ∀ a, y.2.substate.resource? = some a → Address.internalMark.toList <+: a.text.toList →
          (t.run (recordExtension config x)).1 = .error (.notFound (.globalAddress a)))
      ∧ (¬x.HasUnknown → ¬x.NamesInternal config.domains.enabled →
        ∀ e, (t.run (recordExtension config x)).1 = .error e →
        ∃ d i v violation, e = .invariantViolation d i v violation) := by
  obtain ⟨hsound, C, H, hr⟩ := hs.records ho.of_append (by omega)
  have hrefused : ∀ {before y after e}, x.events = before ++ y :: after →
      (∀ z ∈ before, z.2.IsRoutable config.domains.enabled) →
      refusal? config.domains.enabled y = some e →
      ((recordExtension config x).calm s.idle).1 = .error e := by
    intro before y after e hevents hb hy
    obtain ⟨w', hcalm⟩ := calm_recordExtension_of_refusal hsound.addressed
      (hevents ▸ findSome?_refusal hb hy)
    rw [hcalm]
  have hok := hr.calm_isOk_iff hsound ho hroom hx hshort
  have hviolation := hr.violation_of_calm hsound ho hroom hx hshort
  rw [Session.run_recordExtension ht, hstore]
  refine ⟨?_, fun before y after hevents hb => ⟨fun hu => ?_, fun d hd hdom a ha hi => ?_⟩, ?_⟩
  · rw [← not_iff_not, not_or, not_or, not_or, ← hok]
    rcases (recordExtension config x).calm s.idle with ⟨e | report, w'⟩
    · constructor
      · exact fun hn => absurd ⟨e, rfl⟩ hn
      · rintro ⟨_, _, he⟩
        cases he
    · refine ⟨fun _ => ⟨report, w', rfl⟩, ?_⟩
      rintro _ ⟨_, he⟩
      cases he
  · refine hrefused hevents hb ?_
    simp [refusal?, hu, Substate.domain?]
  · have hglobal : ¬a.isGlobal := fun hg => Address.isGlobal_iff.1 hg hi
    refine hrefused hevents hb ?_
    simp [refusal?, hdom, hd, Substate.internalMention?, Substate.mentions_eq, ha, hglobal]
  · intro hu hi e he
    exact hviolation (LedgerExtension.routable_iff.2 ⟨hu, hi⟩) (Prod.ext he rfl)

/-- An extension with a role of an entity that has no owner role. -/
def ownerlessSample : LedgerExtension :=
  ⟨[⟨1, [⟨⟨"account_c", by decide⟩, .roleAssignmentRule "minter" .main none⟩]⟩]⟩

theorem routable_ownerlessSample :
    ∀ y ∈ ownerlessSample.events, y.2.IsRoutable ({} : Configuration).domains.enabled := by
  intro y hy
  rw [List.mem_singleton.1 hy]
  exact ⟨.roleAssignment, rfl, fun _ => nofun⟩

theorem recordersOf_ownerlessSample : recordersOf {} ownerlessSample {} = [] := by
  have hmade : ∃ e, ListKind.roleAssignment.made {} (Snapshot.nextIds {})
      (Snapshot.numbering {} {} ownerlessSample) ownerlessSample.events = .error e :=
    ⟨_, by with_unfolding_all rfl⟩
  have hprep := calm_prepareRows_outcome Snapshot.addressed_empty
    Snapshot.records_empty.chronicled.recalls routable_ownerlessSample
  rcases hout : outcomes {} (fun _ => {}) {} ownerlessSample with e | bss <;> rw [hout] at hprep
  · obtain ⟨w', hprep⟩ := hprep
    rw [recordersOf, hprep]
    rfl
  · obtain ⟨e, hmade⟩ := hmade
    obtain ⟨bs, _, hd⟩ := exists_outcome hout
      (show ListKind.roleAssignment.domain.name ∈ ({} : Configuration).domains.enabled by decide)
    rw [ListKind.outcome_name, hmade] at hd
    cases hd

theorem History.Reaches.run_isError_iff_sample : ∃ t : Session, History.Reaches [] 0 {}
    ∧ History.InOrder [({}, ownerlessSample)] ∧ ownerlessSample.IsFaithful ∧ t.IsCalm
    ∧ ownerlessSample.LacksOwner DomainName.all {}
    ∧ ∃ d i v violation, (t.run (recordExtension {} ownerlessSample)).1
      = .error (.invariantViolation d i v violation) := by
  have ho : History.InOrder ([] ++ [(({} : Configuration), ownerlessSample)]) := by
    unfold History.InOrder
    decide
  have hfaithful : ownerlessSample.IsFaithful := by
    intro y hy d hd
    rw [List.mem_singleton.1 hy] at hd
    cases hd
  have hshort : ∀ name, ∀ row ∈ rowsFor (recordersOf {} ownerlessSample {}) name, row.IsShort := by
    rw [recordersOf_ownerlessSample]
    exact nofun
  have hcalm : (Session.mk {} none false [] [] []).IsCalm := ⟨rfl, rfl, rfl⟩
  have hlacks : ownerlessSample.LacksOwner DomainName.all {} := by
    refine ⟨by decide, _, List.mem_cons_self, ?_, by decide, by decide⟩
    rintro g ⟨e, _, he, _⟩
    cases he
  obtain ⟨hiff, _, hviolation⟩ := History.Reaches.start.run_isError_iff ho (by decide) hfaithful
    hshort hcalm rfl
  obtain ⟨e, he⟩ := hiff.2 (.inr (.inr (.inr hlacks)))
  have hroute := LedgerExtension.routable_iff.1 routable_ownerlessSample
  obtain ⟨d, i, v, violation, rfl⟩ := hviolation hroute.1 hroute.2 e he
  exact ⟨_, .start, ho, hfaithful, hcalm, hlacks, d, i, v, violation, he⟩

end LedgerHistory
