import Mathlib.Data.List.Pairwise
import LedgerHistory.Proofs.Recording.History

/-!
# States that attempts lead to

A state that attempts lead to from the empty one is sound and records its history, when the versions
of what was committed do not decrease (`History.Reaches.records`): an attempt that fails changes
nothing but sequences (`Snapshot.Records.of_frame`), and one that ends well adds what it committed
(`Snapshot.Records.completed`).
-/

namespace LedgerHistory

section Step

variable {h : History} {n : Nat} {s s' : Snapshot} {C : Chronicles} {H : Histories}
  {config : Configuration} {x : LedgerExtension}

theorem Snapshot.number_of_get? {a : Address} {e : Entity} (ha : s.entities.get? a = some e) :
    s.number a = e.id := Routing.numbering_of_get? (w := s.idle) ha

theorem Snapshot.number_congr (he : s'.entities = s.entities) : s'.number = s.number := by
  funext a
  show ((s'.entities.get? a).map (·.id)).getD default = ((s.entities.get? a).map (·.id)).getD default
  rw [he]

theorem Snapshot.records_empty : ({} : Snapshot).Records [] (fun _ => {}) fun _ => [] where
  known := nofun
  routable := nofun
  holds _ := ⟨rfl, rfl, fun _ => rfl⟩
  consistent _ := NewRows.consistent_empty
  tells _ := NewRows.tells_nil
  plain _ := rfl
  increasing _ := .nil
  plainTells _ := rfl
  others _ := rfl

theorem Snapshot.Records.of_frame (hr : s.Records h C H) (ht : s'.tables = s.tables)
    (he : s'.entities = s.entities) : s'.Records h C H := by
  have hrows : ∀ name, s'.rows name = s.rows name := fun name => by
    simp only [Snapshot.rows, Snapshot.table, ht]
  have hnumber := Snapshot.number_congr he
  refine ⟨?_, hr.routable, fun k => (hr.holds k).of_tables_eq ht, hr.consistent, fun k => ?_,
    fun k => ?_, hr.increasing, fun k => ?_, fun {name} hn => ?_⟩
  · rw [he]
    exact hr.known
  · rw [hnumber]
    exact hr.tells k
  · rw [hrows]
    exact hr.plain k
  · rw [hnumber]
    exact hr.plainTells k
  · rw [hrows]
    exact hr.others hn

theorem Snapshot.Records.chronicled (hr : s.Records h C H) : s.Chronicled C :=
  ⟨hr.holds, fun k => (hr.consistent k).ordered, fun k => (hr.consistent k).bare⟩

/-- The keys of the aggregates are those of the groups that their domain recorded. -/
theorem Snapshot.Records.groupKeys_eq (hr : s.Records h C H) (k : ListKind) :
    (C k).aggregates.map Aggregate.groupKey = (h.groups s.number k).map (·.1) := by
  rw [(hr.tells k).aggregates, List.map_map]
  rfl

/-- An aggregate stands for events that its domain recorded. -/
theorem Snapshot.Records.event_of_aggregate (hr : s.Records h C H) {k : ListKind} {g : Aggregate}
    (hg : g ∈ (C k).aggregates) : ∃ p ∈ h, k.domain.name ∈ p.1.domains.enabled ∧ ∃ y ∈ p.2.events,
      y.2.substate.domain? = some k.domain.name ∧ g.groupKey = ⟨s.number y.2.entity, y.1⟩ := by
  have hkey : g.groupKey ∈ (h.groups s.number k).map (·.1) :=
    hr.groupKeys_eq k ▸ List.mem_map_of_mem hg
  obtain ⟨group, hgroup, he⟩ := List.mem_map.1 hkey
  rw [← he]
  exact History.event_of_mem_groups hgroup

/-- No row of a domain is more recent than what comes after its history. -/
theorem Snapshot.Records.until (hr : s.Records h C H)
    (ho : History.InOrder (h ++ [(config, x)])) (k : ListKind) {y : Int64 × SubstateEvent}
    (hy : y ∈ x.events) : (C k).Until y.1 := by
  intro a ha
  obtain ⟨p, hp, _, z, hz, _, hkey⟩ := hr.event_of_aggregate ha
  unfold History.InOrder at ho
  rw [History.events_append] at ho
  have hle := (List.pairwise_append.1 ho).2.2 z (List.mem_flatMap.2 ⟨p, hp, hz⟩) y
    (by simpa [History.events] using hy)
  have hver : z.1 = a.stateVersion := congrArg GroupKey.stateVersion hkey.symm
  rwa [hver] at hle

/-- The versions that a domain visits are those of its events. -/
theorem ListKind.exists_visit_iff {number : Numbering} {k : ListKind}
    {xs : List (Int64 × SubstateEvent)} {v : Int64} :
    (∃ z ∈ k.visits number xs, z.1.stateVersion = v)
      ↔ ∃ y ∈ xs, y.2.substate.domain? = some k.domain.name ∧ y.1 = v := by
  constructor
  · rintro ⟨⟨key, m⟩, hz, rfl⟩
    obtain ⟨y, hy, hm, rfl⟩ := mem_visits_iff.1 hz
    exact ⟨y, hy, (k.isSome_meaning number).1 (by rw [hm]; rfl), rfl⟩
  · rintro ⟨y, hy, hd, rfl⟩
    obtain ⟨m, hm⟩ := Option.isSome_iff_exists.1 ((k.isSome_meaning number).2 hd)
    exact ⟨(_, m), mem_visits_iff.2 ⟨y, hy, hm, rfl⟩, rfl⟩

theorem ListKind.pairwise_visits {number : Numbering} (k : ListKind)
    {xs : List (Int64 × SubstateEvent)} (h : xs.Pairwise (·.1 ≤ ·.1)) :
    (k.visits number xs).Pairwise fun y z => y.1.stateVersion ≤ z.1.stateVersion := by
  refine List.Pairwise.filterMap _ (fun y y' hle z hz z' hz' => ?_) h
  obtain ⟨m, _, rfl⟩ := Option.map_eq_some_iff.1 hz
  obtain ⟨m', _, rfl⟩ := Option.map_eq_some_iff.1 hz'
  exact hle

theorem ListKind.pairwise_groups {number : Numbering} (k : ListKind)
    {xs : List (Int64 × SubstateEvent)} (h : xs.Pairwise (·.1 ≤ ·.1)) :
    (k.groups number xs).Pairwise fun g g' => g.1.stateVersion ≤ g'.1.stateVersion :=
  GroupedChanges.pairwise_toList (k.pairwise_visits h)

theorem ListKind.nodup_groupKeys (k : ListKind) (number : Numbering)
    (xs : List (Int64 × SubstateEvent)) : ((k.groups number xs).map (·.1)).Nodup := by
  rw [groups, GroupedChanges.map_toList]
  exact nodup_distinctKeys _

theorem ListKind.bare_group {k : ListKind} (g : k.domain.Group) :
    g.2.singletons = [] ∨ k.domain.singletonTable.isSome := by
  rcases ht : k.domain.singletonTable with _ | t
  · left
    rcases hv : g.2.singletons with _ | ⟨v, vs⟩
    · rfl
    · exact (isEmpty_singleton ht v).elim
  · exact .inr rfl

theorem History.pairwise_events (ho : h.InOrder) {p : Configuration × LedgerExtension} (hp : p ∈ h) :
    p.2.events.Pairwise (·.1 ≤ ·.1) :=
  (List.pairwise_flatMap.1 ho).1 p hp

theorem History.InOrder.last (ho : History.InOrder (h ++ [(config, x)])) :
    x.events.Pairwise (·.1 ≤ ·.1) :=
  History.pairwise_events ho (p := (config, x)) (List.mem_append_right h List.mem_cons_self)

/-- No row of a domain is more recent than the groups of what comes after its history. -/
theorem Snapshot.Records.until_groups (hr : s.Records h C H)
    (ho : History.InOrder (h ++ [(config, x)])) {k : ListKind} {number : Numbering} :
    ∀ g ∈ k.groups number x.events, (C k).Until g.1.stateVersion := by
  intro g hg
  obtain ⟨y, hy, _, hkey⟩ := (k.mem_groupKeys number).1 (List.mem_map_of_mem hg)
  rw [hkey]
  exact hr.until ho k hy

/-- What comes after a history adds to the whole chronicle of a domain. -/
theorem Snapshot.Records.made_eq (hr : s.Records h C H)
    (ho : History.InOrder (h ++ [(config, x)])) (k : ListKind) (number : Numbering) :
    k.made (C k) s.nextIds number x.events
      = (C k).rowsAfter (k.domain.firstIds s.nextIds) (k.groups number x.events) := by
  refine ListKind.made_eq (hr.consistent k) fun z hz => ?_
  obtain ⟨y, hy, _, hv⟩ := ListKind.exists_visit_iff.1 ⟨z, hz, rfl⟩
  rw [← hv]
  exact hr.until ho k hy

/-- What an extension adds to the chronicle of a domain that records it. -/
theorem Snapshot.Records.consistent_made (hs : s.Sound n) (hr : s.Records h C H)
    (ho : History.InOrder (h ++ [(config, x)])) (hroom : n + (1 + 2 * x.eventCount) < 2 ^ 63)
    {k : ListKind} {number : Numbering} {R : NewRows k.domain}
    (hR : k.made (C k) s.nextIds number x.events = .ok R) : (C k ++ R).Consistent := by
  have hfits := hs.hasRoom hroom hR
  rw [hr.made_eq ho] at hR
  exact ((hr.consistent k).rowsAfter (hs.below hroom (hr.holds k)) (k.pairwise_groups ho.last)
    (hr.until_groups ho) hfits hR).1

theorem Snapshot.Records.increasing_made (hs : s.Sound n) (hr : s.Records h C H)
    (hroom : n + (1 + 2 * x.eventCount) < 2 ^ 63) (k : PlainKind) (number : Numbering) :
    (H k ++ (k.made s.nextIds number x.events).map (·.map k.reread)).Pairwise (·.id < ·.id) := by
  have hlen : (k.made s.nextIds number x.events).length ≤ _ := k.length_made_le s.nextIds
  have hbound := hs.bound (Table.sequenceNameOf k.domain.table.name)
  have hnext := toInt_nextIds hs hroom k.domain.table.name
  unfold LedgerExtension.eventCount at hroom
  have hfits : (s.nextIds k.domain.table.name).toInt + (k.changes number x.events).length < 2 ^ 63 := by
    rw [PlainKind.made, length_enumerated] at hlen
    omega
  have hids : ((k.made s.nextIds number x.events).map (·.map k.reread)).map (·.id)
      = idsFrom (s.nextIds k.domain.table.name) (k.changes number x.events).length := by
    rw [List.map_map, ← map_id_enumerated]
    rfl
  refine List.pairwise_append.2 ⟨hr.increasing k, ?_, fun y hy z hz => ?_⟩
  · refine List.Pairwise.of_map (S := (· < ·)) (·.id) (fun _ _ hlt => hlt) ?_
    rw [hids]
    exact increasing_idsFrom (Int.le_of_lt hfits)
  · have hold := hs.id_le (·.id) k.at_encode (hr.plain k) hy
    have hnew : z.id ∈ idsFrom (s.nextIds k.domain.table.name) (k.changes number x.events).length := by
      rw [← hids]
      exact List.mem_map_of_mem hz
    have hge := (mem_idsFrom hfits z.id hnew).1
    rw [Int64.le_iff_toInt_le] at hge
    rw [Int64.lt_iff_toInt_lt]
    omega

theorem DomainName.eq_of_table_name {d d' : DomainName} {t t' : Table} (ht : t ∈ d.tables)
    (ht' : t' ∈ d'.tables) (he : t.name = t'.name) : d = d' := by
  by_contra hne
  have hn := DomainName.nodup_tables
  rw [List.map_flatMap, List.nodup_flatMap] at hn
  have : Std.Symm (Function.onFun List.Disjoint fun d : DomainName => d.tables.map (·.name)) :=
    ⟨fun _ _ hd _ h h' => hd h' h⟩
  have hdisjoint := hn.2.forall d.mem_all d'.mem_all hne
  exact hdisjoint (List.mem_map_of_mem ht) (he ▸ List.mem_map_of_mem ht')

/-- The tables of a domain that is not enabled are not among those written to. -/
theorem DomainSwitches.name_ne {switches : DomainSwitches} {d : DomainName} {t : Table}
    (ht : t ∈ d.tables) (hd : d ∉ switches.enabled) : ∀ t' ∈ switches.tables, t'.name ≠ t.name := by
  intro t' ht' he
  obtain ⟨d', hd', htd'⟩ := DomainSwitches.mem_tables ht'
  rw [DomainName.eq_of_table_name htd' ht he] at hd'
  exact hd hd'

theorem ListKind.tables_name (k : ListKind) : k.domain.name.tables = k.domain.tables := by
  cases k <;> rfl

theorem ListKind.mem_tables (k : ListKind) : k.domain.entryTable ∈ k.domain.name.tables
    ∧ k.domain.aggregateSchema.table ∈ k.domain.name.tables
    ∧ ∀ t, k.domain.singletonTable = some t → t.table ∈ k.domain.name.tables := by
  rw [k.tables_name, ListDomain.tables]
  refine ⟨by simp, by simp, fun t ht => ?_⟩
  simp [ht]

theorem PlainKind.mem_tables (k : PlainKind) : k.domain.table ∈ k.domain.name.tables := by
  cases k <;> exact List.mem_cons_self

section Kept

variable {switches : DomainSwitches}
  (hkept : ∀ {name : String}, (∀ t ∈ switches.tables, t.name ≠ name) → s'.rows name = s.rows name)

include hkept

/-- Where the tables that are not written to keep their rows, a domain that is not enabled keeps its. -/
theorem Snapshot.Holds.of_kept {k : ListKind} {B : NewRows k.domain} (h : s.Holds k B)
    (hk : k.domain.name ∉ switches.enabled) : s'.Holds k B :=
  h.congr fun _ ht => hkept (DomainSwitches.name_ne (k.tables_name ▸ ht) hk)

/-- A table of no domain keeps its rows. -/
theorem Snapshot.rows_of_kept {name : String} (hn : ∀ d : DomainName, ∀ t ∈ d.tables, t.name ≠ name) :
    s'.rows name = s.rows name := by
  refine hkept fun t ht => ?_
  obtain ⟨d, _, htd⟩ := DomainSwitches.mem_tables ht
  exact hn d t htd

end Kept

namespace History

theorem groups_concat (number : Numbering) (k : ListKind) : History.groups (h ++ [(config, x)]) number k
    = h.groups number k ++ if k.domain.name ∈ config.domains.enabled
      then k.groups number x.events else [] := by
  rw [groups, List.flatMap_append, List.flatMap_singleton, ← groups]

theorem changes_concat (number : Numbering) (k : PlainKind) :
    History.changes (h ++ [(config, x)]) number k
      = h.changes number k ++ if k.domain.name ∈ config.domains.enabled
        then k.changes number x.events else [] := by
  rw [changes, List.flatMap_append, List.flatMap_singleton, ← changes]

end History

theorem Snapshot.Completed.get?_of_some (hc : s.Completed n C config x s') {a : Address} {e : Entity}
    (ha : s.entities.get? a = some e) : s'.entities.get? a = some e := by
  rw [hc.entities]
  exact get?_prepared_of_some ha

/-- The numbers that a history needs stay. -/
theorem Snapshot.number_eq_of_known
    (hknown : ∀ p ∈ h, ∀ y ∈ p.2.events, ∀ q ∈ demandsOf p.1.domains.enabled y,
      ∃ e, s.entities.get? q.1 = some e)
    (hget : ∀ {a e}, s.entities.get? a = some e → s'.entities.get? a = some e) :
    ∀ p ∈ h, ∀ y ∈ p.2.events, ∀ q ∈ demandsOf p.1.domains.enabled y,
      s.number q.1 = s'.number q.1 := by
  intro p hp y hy q hq
  obtain ⟨e, he⟩ := hknown p hp y hy q hq
  rw [Snapshot.number_of_get? he, Snapshot.number_of_get? (hget he)]

theorem Snapshot.Records.number_eq (hr : s.Records h C H)
    (hget : ∀ {a e}, s.entities.get? a = some e → s'.entities.get? a = some e) :
    ∀ p ∈ h, ∀ y ∈ p.2.events, ∀ q ∈ demandsOf p.1.domains.enabled y,
      s.number q.1 = s'.number q.1 := Snapshot.number_eq_of_known hr.known hget

theorem Snapshot.Completed.number_eq (hc : s.Completed n C config x s') :
    s'.number = s.numbering config x :=
  Snapshot.number_congr (s := (s.idle.prepared config x).working) hc.entities

/-- What an extension that is committed adds to the chronicle of a domain: the rows of its groups, or
none if the domain is not enabled. -/
theorem Snapshot.Records.exists_added (hs : s.Sound n) (hr : s.Records h C H)
    (ho : History.InOrder (h ++ [(config, x)])) (hroom : n + (1 + 2 * x.eventCount) < 2 ^ 63)
    (hc : s.Completed n C config x s') (k : ListKind) :
    ∃ R, s'.Holds k (C k ++ R) ∧ (C k ++ R).Consistent
      ∧ R.Tells ((if k.domain.name ∈ config.domains.enabled
        then k.groups s'.number x.events else []).map k.rereadGroup) := by
  by_cases hk : k.domain.name ∈ config.domains.enabled
  · obtain ⟨R, hR, _⟩ := hc.admitted.lists k hk
    rw [if_pos hk, hc.number_eq]
    exact ⟨k.rereadRows R, hc.lists hk hR,
      k.consistent_reread (hr.consistent_made hs ho hroom hR),
      k.tells_reread (NewRows.tells_rowsAfter hR)⟩
  · rw [if_neg hk]
    refine ⟨{}, ?_, ?_, NewRows.tells_nil⟩ <;> rw [NewRows.append_empty]
    · exact (hr.holds k).of_kept hc.kept hk
    · exact hr.consistent k

/-- The rows that an extension that is committed adds to a domain without lists. -/
theorem Snapshot.Records.exists_addedPlain (hs : s.Sound n) (hr : s.Records h C H)
    (hroom : n + (1 + 2 * x.eventCount) < 2 ^ 63) (hc : s.Completed n C config x s')
    (k : PlainKind) :
    ∃ ys, s'.rows k.domain.table.name = (H k ++ ys).map k.domain.encode
      ∧ (H k ++ ys).Pairwise (·.id < ·.id)
      ∧ ys.map (fun y => (y.groupKey, y.change)) = (if k.domain.name ∈ config.domains.enabled
        then k.changes s'.number x.events else []).map fun y => (y.1, k.reread y.2) := by
  by_cases hk : k.domain.name ∈ config.domains.enabled
  · have hrows := hc.plain hk
    rw [hr.plain k, ← List.map_append] at hrows
    rw [if_pos hk, hc.number_eq]
    refine ⟨_, hrows, hr.increasing_made hs hroom k _, ?_⟩
    rw [List.map_map, PlainKind.made]
    conv_rhs => rw [← map_enumerated (s.nextIds k.domain.table.name)
      (k.changes (s.numbering config x) x.events), List.map_map]
    rfl
  · rw [if_neg hk]
    refine ⟨[], ?_, ?_, rfl⟩ <;> rw [List.append_nil]
    · rw [hc.kept (DomainSwitches.name_ne k.mem_tables hk)]
      exact hr.plain k
    · exact hr.increasing k

/-- An extension that is committed is recorded behind the history. -/
theorem Snapshot.Records.completed (hs : s.Sound n) (hr : s.Records h C H)
    (ho : History.InOrder (h ++ [(config, x)])) (hroom : n + (1 + 2 * x.eventCount) < 2 ^ 63)
    (hc : s.Completed n C config x s') : ∃ (C' : Chronicles) (H' : Histories),
      s'.Records (h ++ [(config, x)]) C' H' ∧ (∀ k, ∃ R, C' k = C k ++ R)
        ∧ ∀ k, ∃ ys, H' k = H k ++ ys := by
  have hget := fun {a e} => hc.get?_of_some (a := a) (e := e)
  -- the numbers that the history was recorded with are those of the new directory
  have hsame := hr.number_eq hget
  choose R hholds hconsistent htells using hr.exists_added hs ho hroom hc
  choose Y hrows hincreasing hplainTells using hr.exists_addedPlain hs hroom hc
  refine ⟨fun k => C k ++ R k, fun k => H k ++ Y k, ⟨?_, ?_, hholds, hconsistent, fun k => ?_, hrows,
    hincreasing, fun k => ?_, fun {name} hn => ?_⟩, fun k => ⟨R k, rfl⟩, fun k => ⟨Y k, rfl⟩⟩
  · intro p hp y hy q hq
    rcases List.mem_append.1 hp with hp | hp
    · obtain ⟨e, he⟩ := hr.known p hp y hy q hq
      exact ⟨e, hget he⟩
    · rw [List.mem_singleton.1 hp] at hy hq
      rw [hc.entities]
      exact World.exists_get?_demandAll (List.mem_flatMap.2 ⟨y, hy, hq⟩)
  · intro p hp
    rcases List.mem_append.1 hp with hp | hp
    · exact hr.routable p hp
    · rw [List.mem_singleton.1 hp]
      exact hc.admitted.routable
  · rw [History.groups_concat, List.map_append, ← History.groups_congr hsame k]
    exact (hr.tells k).append (htells k)
  · rw [History.changes_concat, List.map_append, List.map_append, hr.plainTells k, hplainTells k,
      History.changes_congr hsame k]
  · exact (Snapshot.rows_of_kept hc.kept hn).trans (hr.others hn)

end Step

section Reaches

variable {h : History} {n : Nat} {s : Snapshot}

/-- What ends well without events leaves the history, but for the mention of it. -/
theorem Snapshot.Records.of_isEmpty {C : Chronicles} {H : Histories} {config : Configuration}
    {x : LedgerExtension} (hx : x.isEmpty = true) (hr : s.Records h C H) :
    s.Records (h ++ [(config, x)]) C H := by
  have hnil := x.events_eq_nil hx
  refine ⟨?_, ?_, hr.holds, hr.consistent, fun k => ?_, hr.plain, hr.increasing, fun k => ?_,
    hr.others⟩
  · intro p hp
    rcases List.mem_append.1 hp with hp | hp
    · exact hr.known p hp
    · rw [List.mem_singleton.1 hp, hnil]
      exact nofun
  · intro p hp
    rcases List.mem_append.1 hp with hp | hp
    · exact hr.routable p hp
    · rw [List.mem_singleton.1 hp, hnil]
      exact nofun
  · have hgroups : k.groups s.number [] = [] := rfl
    rw [History.groups_concat, hnil, hgroups, ite_self, List.append_nil]
    exact hr.tells k
  · have hchanges : k.changes s.number [] = [] := rfl
    rw [History.changes_concat, hnil, hchanges, ite_self, List.append_nil]
    exact hr.plainTells k

/-- A state that attempts lead to is sound and records its history. -/
theorem History.Reaches.records (hs : h.Reaches n s) (ho : h.InOrder) (hroom : n < 2 ^ 63) :
    s.Sound n ∧ ∃ C H, s.Records h C H := by
  induction hs with
  | start => exact ⟨Snapshot.sound_empty, _, _, Snapshot.records_empty⟩
  | @failed h n s config x e w' hs hrun ih =>
    obtain ⟨hsound, C, H, hr⟩ := ih ho (by omega)
    rcases hx : x.isEmpty with _ | _
    · rcases runs_recordExtension hx hrun with ⟨_, hadv⟩ | ⟨⟨_, he⟩, _⟩
      · exact ⟨hsound.advanced hadv hroom, C, H, hr.of_frame hadv.tables hadv.entities⟩
      · cases he
    · obtain ⟨he, _⟩ := runs_recordExtension_of_isEmpty hx hrun
      cases he
  | @recorded h n s config x report w' hs hrun ih =>
    obtain ⟨hsound, C, H, hr⟩ := ih ho.of_append (by omega)
    rcases hx : x.isEmpty with _ | _
    · rcases runs_recordExtension hx hrun with ⟨⟨_, he⟩, _⟩ | ⟨_, hcalm⟩
      · cases he
      · have hc := completed_of_calm hsound hr.chronicled hroom hx hcalm
        obtain ⟨C', H', hr', _, _⟩ := hr.completed hsound ho hroom hc
        exact ⟨hc.sound, C', H', hr'⟩
    · obtain ⟨_, rfl⟩ := runs_recordExtension_of_isEmpty hx hrun
      exact ⟨hsound.mono (by omega), C, H, hr.of_isEmpty hx⟩

/-- A calm attempt to record what a state admits is committed. -/
theorem History.Reaches.exists_recorded {C : Chronicles} {config : Configuration}
    {x : LedgerExtension} (hs : h.Reaches n s) (hsound : s.Sound n) (hC : s.Chronicled C)
    (hroom : n + (1 + 2 * x.eventCount) < 2 ^ 63) (hx : x.isEmpty = false)
    (ha : s.Admits C config x) :
    ∃ s', History.Reaches (h ++ [(config, x)]) (n + (1 + 2 * x.eventCount)) s'
      ∧ s.Completed n C config x s' := by
  obtain ⟨report, w', hcalm⟩ := (calm_recordExtension_isOk_iff hsound hC.recalls hroom hx).2 ha
  exact ⟨w'.committed, .recorded hs (Script.runs_of_calm hcalm),
    completed_of_calm hsound hC hroom hx hcalm⟩

end Reaches

end LedgerHistory
