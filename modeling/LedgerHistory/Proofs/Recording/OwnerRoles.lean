import LedgerHistory.Proofs.Recording.AsOf

/-!
# Owner roles

In every state that attempts lead to, the owner role of an aggregate of role assignments is a row of
the same entity, the last one up to the aggregate's version. These rows go with the events that set
the owner role of the entity, so it is the last such event (`History.Reaches.owner_of_aggregate`).
-/

namespace LedgerHistory

/-- The events of the extensions that a domain recorded. -/
def History.recorded (h : History) (d : DomainName) : List (Int64 × SubstateEvent) :=
  h.flatMap fun p => if d ∈ p.1.domains.enabled then p.2.events else []

/-- The owner role that a substate sets. -/
def Substate.ownerRole? : Substate → Option Document
  | .roleAssignmentOwner ownerRole => some ownerRole
  | _ => none

/-- The events up to a version that set the owner role of an entity. -/
def ownerEvents (a : Address) (v : Int64) (es : List (Int64 × SubstateEvent)) :
    List (Int64 × SubstateEvent) :=
  es.filter fun y => y.2.entity = a ∧ y.1 ≤ v ∧ y.2.substate.ownerRole?.isSome

/-- Whether a row has the version of an event and the owner role that it sets, as it is read back. -/
def ShowsOwner (o : HistoryRow Document) (y : Int64 × SubstateEvent) : Prop :=
  o.stateVersion = y.1
    ∧ y.2.substate.ownerRole?.map (ListKind.rereadSingleton .roleAssignment) = some o.change

/-- Whether a row is the owner role of an aggregate: the last of the rows of the entity up to the
aggregate's version, which go with the events that set the owner role. -/
structure OwnerOf (h : History) (a : Address) (owners : List (HistoryRow Document)) (g : Aggregate)
    (o : HistoryRow Document) : Prop where
  mem : o ∈ owners
  entity : o.entity = g.entity
  version : o.stateVersion ≤ g.stateVersion
  pointer : g.singleton = some o.id
  last : (upTo g.entity g.stateVersion owners).getLast? = some o
  greatest : ∀ x ∈ upTo g.entity g.stateVersion owners, x.id ≤ o.id
  events : List.Forall₂ ShowsOwner (upTo g.entity g.stateVersion owners)
    (ownerEvents a g.stateVersion (h.recorded .roleAssignment))

/-! ## Singletons and events -/

section Events

variable {number : Numbering} {k : ListKind}

/-- The singleton that an event means, under the key of its group. -/
def ListKind.singletonChange? (k : ListKind) (number : Numbering) (y : Int64 × SubstateEvent) :
    Option (GroupKey × k.domain.Singleton) :=
  ((k.meaning number y.2.substate).bind Meaning.singleton?).map (⟨number y.2.entity, y.1⟩, ·)

theorem ListKind.singletonChanges_visits (k : ListKind) (number : Numbering)
    (xs : List (Int64 × SubstateEvent)) :
    GroupedChanges.singletonChanges (k.visits number xs) = xs.filterMap (k.singletonChange? number) := by
  rw [GroupedChanges.singletonChanges, visits, List.filterMap_filterMap]
  refine List.filterMap_congr fun y _ => ?_
  unfold singletonChange?
  rcases k.meaning number y.2.substate with _ | m <;> rfl

theorem ListKind.domain_of_singletonChange {y : Int64 × SubstateEvent}
    {z : GroupKey × k.domain.Singleton} (h : k.singletonChange? number y = some z) :
    y.2.substate.domain? = some k.domain.name ∧ z.1 = ⟨number y.2.entity, y.1⟩ := by
  obtain ⟨v, hv, rfl⟩ := Option.map_eq_some_iff.1 h
  obtain ⟨m, hm, _⟩ := Option.bind_eq_some_iff.1 hv
  exact ⟨(k.isSome_meaning number).1 (by rw [hm]; rfl), rfl⟩

/-- What substates mean to role assignments is a singleton when it sets the owner role. -/
theorem Substate.singleton_meaning (number : Numbering) (s : Substate) :
    (ListKind.roleAssignment.meaning number s).bind Meaning.singleton? = s.ownerRole? := by
  cases s <;> rfl

variable {h : History}

/-- The singletons that the groups of a history have for an entity are those of its events, in
order. -/
theorem History.filter_singletonsOf (ho : h.InOrder) (e : EntityId) :
    (NewRows.singletonsOf (h.groups number k)).filter (·.1.entity = e)
      = ((h.recorded k.domain.name).filterMap (k.singletonChange? number)).filter
        (·.1.entity = e) := by
  rw [groups, NewRows.singletonsOf, List.flatMap_assoc, recorded, List.filterMap_flatMap,
    List.filter_flatMap, List.filter_flatMap]
  refine List.flatMap_congr fun p hp => ?_
  split
  · rw [← ListKind.singletonChanges_visits]
    show (NewRows.singletonsOf (k.groups number p.2.events)).filter _ = _
    rw [ListKind.groups, GroupedChanges.singletonsOf_toList, GroupedChanges.singletonChanges,
      GroupedChanges.singletonChanges, GroupedChanges.filter_keyed, GroupedChanges.filter_keyed,
      GroupedChanges.filter_visited (k.pairwise_visits (pairwise_events ho hp))]
  · rfl

end Events

/-! ## The rows of singletons -/

section Singletons

variable {h : History} {n : Nat} {s : Snapshot} {C : Chronicles} {H : Histories} {k : ListKind}
  (hs : s.Sound n) (hr : s.Records h C H)

include hr

/-- The entity of an event that a domain recorded is in the directory. -/
theorem Snapshot.Records.known_of_recorded {y : Int64 × SubstateEvent}
    (hy : y ∈ h.recorded k.domain.name) (hd : y.2.substate.domain? = some k.domain.name) :
    ∃ e, s.entities.get? y.2.entity = some e := by
  obtain ⟨p, hp, hy⟩ := List.mem_flatMap.1 hy
  split at hy
  · rename_i hk
    exact hr.known p hp y hy _ (mem_demandsOf hd hk).1
  · cases hy

include hs

/-- The singletons of an entity up to a version go with its events that mean one. -/
theorem Snapshot.Records.forall₂_singletons (ho : h.InOrder) {a : Address}
    (ha : ∃ e, s.entities.get? a = some e) (v : Int64) :
    List.Forall₂ (fun o y => (k.singletonChange? s.number y).map (fun z => (z.1, k.rereadSingleton z.2))
        = some (o.groupKey, o.change))
      (upTo (s.number a) v (C k).singletons)
      ((h.recorded k.domain.name).filter fun y =>
        y.2.entity = a ∧ y.1 ≤ v ∧ (k.singletonChange? s.number y).isSome) := by
  have htells := (hr.tells k).singletons
  rw [ListKind.singletonsOf_rereadGroup] at htells
  have hentity : (NewRows.singletonsOf (h.groups s.number k)).filter _ = _ :=
    History.filter_singletonsOf ho (s.number a)
  have hrows : (upTo (s.number a) v (C k).singletons).map (fun x => (x.groupKey, x.change))
      = ((h.recorded k.domain.name).filter fun y =>
          y.2.entity = a ∧ y.1 ≤ v ∧ (k.singletonChange? s.number y).isSome).filterMap
        fun y => (k.singletonChange? s.number y).map fun z => (z.1, k.rereadSingleton z.2) := by
    rw [map_upTo, htells, List.filter_map, List.filter_map]
    show (((NewRows.singletonsOf (h.groups s.number k)).filter (·.1.entity = s.number a)).filter
      (·.1.stateVersion ≤ v)).map (fun z => (z.1, k.rereadSingleton z.2)) = _
    rw [hentity, List.filter_filter, List.filter_filterMap, List.map_filterMap, List.filterMap_filter]
    refine List.filterMap_congr fun y hy => ?_
    rcases hz : k.singletonChange? s.number y with _ | z
    · simp
    · obtain ⟨hd, hkey⟩ := ListKind.domain_of_singletonChange hz
      have hiff : s.number y.2.entity = s.number a ↔ y.2.entity = a :=
        ⟨fun he => hs.number_inj (hr.known_of_recorded hy hd) ha he, congrArg s.number⟩
      have hcond : (decide (z.1.stateVersion ≤ v) && decide (z.1.entity = s.number a))
          = decide (y.2.entity = a ∧ y.1 ≤ v ∧ (some z).isSome) := by
        rw [hkey, Bool.eq_iff_iff]
        simp [hiff, and_comm]
      rw [Option.filter_some, hcond]
      split <;> rfl
  have hrel := forall₂_of_map_eq_filterMap hrows
  rwa [List.filter_eq_self.2 fun y hy => ?_] at hrel
  rw [Option.isSome_map]
  exact (of_decide_eq_true (List.mem_filter.1 hy).2).2.2

/-- The owner roles of an entity up to a version go with the events that set them. -/
theorem Snapshot.Records.forall₂_owners (ho : h.InOrder) {a : Address}
    (ha : ∃ e, s.entities.get? a = some e) (v : Int64) :
    List.Forall₂ ShowsOwner (upTo (s.number a) v (C .roleAssignment).singletons)
      (ownerEvents a v (h.recorded .roleAssignment)) := by
  have hevents : ownerEvents a v (h.recorded .roleAssignment)
      = (h.recorded ListKind.roleAssignment.domain.name).filter fun y => y.2.entity = a ∧ y.1 ≤ v
        ∧ (ListKind.roleAssignment.singletonChange? s.number y).isSome := by
    refine List.filter_congr fun y _ => ?_
    rw [ListKind.singletonChange?, Option.isSome_map, Substate.singleton_meaning]
    rfl
  rw [hevents]
  refine (hr.forall₂_singletons (k := .roleAssignment) hs ho ha v).imp fun o y hoy => ?_
  obtain ⟨z, hz, he⟩ := Option.map_eq_some_iff.1 hoy
  obtain ⟨d, hd, rfl⟩ := Option.map_eq_some_iff.1 hz
  obtain ⟨hkey, hchange⟩ := Prod.mk.inj he
  refine ⟨(congrArg GroupKey.stateVersion hkey).symm, ?_⟩
  rw [← Substate.singleton_meaning s.number, hd]
  exact congrArg some hchange

end Singletons

theorem HistoryRow.id_le_last {χ : Type} {xs : List (HistoryRow χ)} {o : HistoryRow χ}
    (hp : xs.Pairwise (·.id < ·.id)) (ho : xs.getLast? = some o) : ∀ x ∈ xs, x.id ≤ o.id := by
  obtain ⟨older, rfl⟩ := List.getLast?_eq_some_iff.1 ho
  intro x hx
  rcases List.mem_append.1 hx with hx | hx
  · exact Int64.le_of_lt ((List.pairwise_append.1 hp).2.2 x hx o List.mem_cons_self)
  · rw [List.mem_singleton.1 hx]
    exact Int64.le_refl _

/-- In every state that attempts lead to while no sequence runs out, the owner role of an aggregate
is a row of the same entity, that of the last of the recorded events up to the aggregate's version
that set the owner role. -/
theorem History.Reaches.owner_of_aggregate {h : History} {n : Nat} {s : Snapshot}
    (hs : h.Reaches n s) (ho : h.InOrder) (hroom : n < 2 ^ 63) {row : Row}
    (hrow : row ∈ s.rows RoleAssignment.aggregateSchema.table.name) :
    ∃ (g : Aggregate) (a : Address) (e : Entity) (owners : List (HistoryRow Document))
      (o : HistoryRow Document), RoleAssignment.aggregateSchema.decode row = .ok g
      ∧ s.entities.get? a = some e ∧ e.id = g.entity
      ∧ s.rows RoleAssignment.ownerTable.name
        = owners.map (fun x => historyFields x ++ [.jsonb x.change])
      ∧ owners.Pairwise (·.id < ·.id) ∧ OwnerOf h a owners g o := by
  obtain ⟨hsound, C, H, hr⟩ := hs.records ho hroom
  have hconsistent := hr.consistent .roleAssignment
  have hrows := (hr.holds .roleAssignment).aggregates
  obtain ⟨g, hg, rfl⟩ := List.mem_map.1 (hrows ▸ hrow)
  obtain ⟨p, hp, hk, y, hy, hd, hkey⟩ := hr.event_of_aggregate hg
  obtain ⟨e, he⟩ := hr.known p hp y hy _ (mem_demandsOf hd hk).1
  have hentity : s.number y.2.entity = g.entity := (congrArg GroupKey.entity hkey).symm
  have hincreasing : (C .roleAssignment).singletons.Pairwise (·.id < ·.id) :=
    hconsistent.ordered.singletons.imp fun hlt => hlt.2
  have hpointer := hconsistent.singleton g hg
  have hpresent := hconsistent.present rfl g hg
  rcases hlast : (upTo g.entity g.stateVersion (C .roleAssignment).singletons).getLast? with _ | o
  · rw [hpointer, hlast] at hpresent
    cases hpresent
  · have hmem : o ∈ upTo g.entity g.stateVersion (C .roleAssignment).singletons :=
      List.mem_of_getLast? hlast
    obtain ⟨hmem', hcond⟩ := List.mem_filter.1 hmem
    refine ⟨g, y.2.entity, e, _, o,
      ListKind.roleAssignment.decode_aggregateRow (hconsistent.bare g hg), he, ?_,
      (hr.holds .roleAssignment).singletons rfl, hincreasing, hmem', (of_decide_eq_true hcond).1,
      (of_decide_eq_true hcond).2, ?_, hlast, fun x hx => ?_, ?_⟩
    · rw [← hentity, Snapshot.number_of_get? he]
    · rw [hpointer, hlast]
      rfl
    · exact HistoryRow.id_le_last (hincreasing.sublist List.filter_sublist) hlast x hx
    · rw [← hentity]
      exact hr.forall₂_owners hsound ho ⟨e, he⟩ g.stateVersion

/-- An extension with a role before the owner role of the first version, and another role in the
second. -/
def ownerSample : LedgerExtension :=
  ⟨[⟨1, [⟨⟨"account_b", by decide⟩, .roleAssignmentRule "minter" .main none⟩,
      ⟨⟨"account_b", by decide⟩, .roleAssignmentOwner (.ofJson .null)⟩]⟩,
    ⟨2, [⟨⟨"account_b", by decide⟩, .roleAssignmentRule "burner" .main none⟩]⟩]⟩

/-- The rows that the sample has for role assignments. -/
def ownerSampleRows : NewRows RoleAssignment.domain :=
  ⟨[⟨1, 1, ⟨1⟩, ⟨"minter", .main, none⟩⟩, ⟨2, 2, ⟨1⟩, ⟨"burner", .main, none⟩⟩],
    [⟨1, 1, ⟨1⟩, ⟨[]⟩, some 1⟩, ⟨2, 2, ⟨1⟩, ⟨[]⟩, some 1⟩], [⟨1, 1, ⟨1⟩, .ofJson .null⟩]⟩

theorem made_ownerSample : ListKind.roleAssignment.made {} (Snapshot.nextIds {})
    (Snapshot.numbering {} {} ownerSample) ownerSample.events = .ok ownerSampleRows := by
  with_unfolding_all rfl

theorem storable_ownerSample : ListKind.roleAssignment.Storable ownerSampleRows := by
  refine ⟨fun x hx => ?_, fun a ha => ?_, fun t ht x hx => ?_⟩
  · rcases List.mem_cons.1 hx with rfl | hx
    · exact ⟨⟨_, rfl⟩, _, rfl⟩
    · rw [List.mem_singleton.1 hx]
      exact ⟨⟨_, rfl⟩, _, rfl⟩
  · rcases List.mem_cons.1 ha with rfl | ha
    · exact ⟨⟨_, rfl⟩, _, rfl⟩
    · rw [List.mem_singleton.1 ha]
      exact ⟨⟨_, rfl⟩, _, rfl⟩
  · cases ht
    rw [List.mem_singleton.1 hx]
    exact ⟨⟨_, rfl⟩, _, by with_unfolding_all rfl⟩

theorem admits_ownerSample : Snapshot.Admits {} (fun _ => {}) {} ownerSample where
  routable y hy := by
    have hrole : y.2.substate.domain? = some .roleAssignment ∧ y.2.substate.mentions = [] := by
      revert y
      decide
    exact ⟨_, hrole.1, fun _ a ha => by rw [hrole.2] at ha; cases ha⟩
  lists k _ := by
    cases k with
    | roleAssignment => exact ⟨_, made_ownerSample, storable_ownerSample⟩
    | metadata | methodRoyalty | resourcePreference | authorizedDepositor =>
      exact ⟨{}, rfl, nofun, nofun, fun _ _ => nofun⟩
  plain k _ := by
    cases k <;> exact nofun

theorem History.Reaches.owner_of_aggregate_sample : ∃ s row,
    History.Reaches [({}, ownerSample)] 7 s
    ∧ row ∈ s.rows RoleAssignment.aggregateSchema.table.name
    ∧ ∃ (g : Aggregate) (a : Address) (e : Entity) (owners : List (HistoryRow Document))
      (o : HistoryRow Document), RoleAssignment.aggregateSchema.decode row = .ok g
      ∧ s.entities.get? a = some e ∧ e.id = g.entity
      ∧ s.rows RoleAssignment.ownerTable.name
        = owners.map (fun x => historyFields x ++ [.jsonb x.change])
      ∧ owners.Pairwise (·.id < ·.id) ∧ OwnerOf [({}, ownerSample)] a owners g o := by
  obtain ⟨s, hs, hc⟩ := History.Reaches.start.exists_recorded Snapshot.sound_empty
    Snapshot.records_empty.chronicled (by decide) rfl admits_ownerSample
  have hrows := (hc.lists (k := .roleAssignment) (by decide) made_ownerSample).aggregates
  have hrow : ListKind.roleAssignment.domain.aggregateRow ⟨2, 2, ⟨1⟩, ⟨[]⟩, some 1⟩
      ∈ s.rows ListKind.roleAssignment.domain.aggregateSchema.table.name := by
    rw [hrows]
    exact List.mem_cons_of_mem _ List.mem_cons_self
  have ho : History.InOrder [({}, ownerSample)] := by
    unfold History.InOrder
    decide
  exact ⟨s, _, hs, hrow, hs.owner_of_aggregate ho (by decide) hrow⟩

end LedgerHistory
