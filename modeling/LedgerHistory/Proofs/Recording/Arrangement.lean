import LedgerHistory.Proofs.Recording.Acceptance

/-!
# Events in the order of their rows

Each event has its row in one table (`Substate.table?`). A domain with lists brings its events
together by entity and state version, in the order in which these first come; one without lists takes
them as they come (`LedgerExtension.arranged`). The rows that it makes are those of its events in this
order, under consecutive ids (`ListKind.made_arranged`, `PlainKind.reread_made`).
-/

namespace LedgerHistory

open LatestLookup (distinctKeys)

/-! ## Values brought together by their keys -/

section Grouped

variable {α β κ μ : Type} [DecidableEq κ] [DecidableEq μ]

/-- Values brought together by their keys, in the order in which the keys first come. -/
def grouped (key : α → κ) (xs : List α) : List α :=
  (distinctKeys (xs.map key)).flatMap fun k => xs.filter (key · = k)

theorem perm_grouped (key : α → κ) (xs : List α) : (grouped key xs).Perm xs :=
  perm_flatMap_filter (nodup_distinctKeys _) fun _ hx => mem_distinctKeys.2 (List.mem_map_of_mem hx)

/-- Keys that are told apart by others come in their order. -/
theorem distinctKeys_map {f : κ → μ} {ks : List κ}
    (hf : ∀ a ∈ ks, ∀ b ∈ ks, f a = f b → a = b) :
    distinctKeys (ks.map f) = (distinctKeys ks).map f := by
  induction ks using List.reverseRecOn with
  | nil => rfl
  | append_singleton ks k ih =>
    have ih := ih fun a ha b hb => hf a (List.mem_append_left _ ha) b (List.mem_append_left _ hb)
    have hmem : f k ∈ ks.map f ↔ k ∈ ks := by
      rw [List.mem_map]
      constructor
      · rintro ⟨a, ha, he⟩
        rwa [← hf a (List.mem_append_left _ ha) k (by simp) he]
      · exact fun hk => ⟨k, hk, rfl⟩
    rw [List.map_append, List.map_singleton, distinctKeys_concat, distinctKeys_concat, ih]
    by_cases hk : k ∈ ks
    · rw [if_pos (mem_distinctKeys.2 hk), if_pos (ih ▸ mem_distinctKeys.2 (hmem.2 hk))]
    · rw [if_neg (mt mem_distinctKeys.1 hk), if_neg fun h => hk (hmem.1 (mem_distinctKeys.1 (ih ▸ h))),
        List.map_append, List.map_singleton]

section ReadOff

variable {f : α → Option β} {key : α → κ} {key' : β → μ} {g : κ → μ} {xs : List α}
  (hf : ∀ x ∈ xs, ∃ y, f x = some y ∧ key' y = g (key x))
  (hg : ∀ x ∈ xs, ∀ y ∈ xs, g (key x) = g (key y) → key x = key y)

include hf hg

theorem distinctKeys_filterMap :
    distinctKeys ((xs.filterMap f).map key') = (distinctKeys (xs.map key)).map g := by
  have hkeys : (xs.filterMap f).map key' = (xs.map key).map g := by
    rw [List.map_filterMap, List.map_map, ← List.filterMap_eq_map]
    refine List.filterMap_congr fun x hx => ?_
    obtain ⟨y, hy, he⟩ := hf x hx
    simp [hy, he]
  rw [hkeys, distinctKeys_map (by simpa using hg)]

/-- What is read off values that all have something to read comes together as the values do. -/
theorem grouped_filterMap : grouped key' (xs.filterMap f) = (grouped key xs).filterMap f := by
  rw [grouped, distinctKeys_filterMap hf hg, List.flatMap_map, grouped, List.filterMap_flatMap]
  refine List.flatMap_congr fun k hk => ?_
  obtain ⟨z, hz, rfl⟩ := List.mem_map.1 (mem_distinctKeys.1 hk)
  rw [List.filter_filterMap, List.filterMap_filter]
  refine List.filterMap_congr fun x hx => ?_
  obtain ⟨y, hy, he⟩ := hf x hx
  have hiff : key' y = g (key z) ↔ key x = key z := by
    rw [he]
    exact ⟨hg x hx z hz, congrArg g⟩
  simp [hy, hiff, Option.filter_some]

end ReadOff

end Grouped

/-! ## Rows of events -/

namespace Substate

/-- The table of the row that a substate is recorded as. -/
def table? : Substate → Option Table
  | .metadataEntry .. => some Metadata.entryTable
  | .roleAssignmentOwner .. => some RoleAssignment.ownerTable
  | .roleAssignmentRule .. => some RoleAssignment.entryTable
  | .methodRoyalty .. => some MethodRoyalty.entryTable
  | .resourcePreference .. => some Preference.entryTable
  | .authorizedDepositor .. => some Depositor.entryTable
  | .defaultDepositRule .. => some DepositRule.table
  | .componentState .. => some ComponentState.table
  | .unknown => none

/-- The fields of this row behind id, state version and entity. -/
def fields (number : Numbering) : Substate → Row
  | .metadataEntry key value isLocked =>
    [.text key, .ofOption .bytea value, .bool value.isNone, .bool isLocked]
  | .roleAssignmentOwner ownerRole => [.jsonb ownerRole]
  | .roleAssignmentRule roleKey scope rule =>
    [.text roleKey, .ofLabel scope, .ofOption .jsonb rule, .bool rule.isNone]
  | .methodRoyalty name amount isLocked => [.text name, .ofOption .jsonb amount, .bool isLocked]
  | .resourcePreference resource preference =>
    [.ofEntityId (number resource), .ofOption .ofLabel preference, .bool preference.isNone]
  | .authorizedDepositor badge isDeleted =>
    [.bool isDeleted, .ofLabel badge.badgeType, .ofEntityId (number badge.resourceAddress),
      .ofOption .text badge.localId?]
  | .defaultDepositRule rule => [.ofLabel rule]
  | .componentState state => [.jsonb state]
  | .unknown => []

end Substate

/-- The row that an event is recorded as. -/
def eventRow (number : Numbering) (id : Int64) (y : Int64 × SubstateEvent) : Row :=
  [.int8 id, .int8 y.1, .ofEntityId (number y.2.entity)] ++ y.2.substate.fields number

/-- The rows of events under consecutive ids. -/
def eventRows (number : Numbering) (first : Int64) (ys : List (Int64 × SubstateEvent)) : List Row :=
  List.zipWith (eventRow number) (idsFrom first ys.length) ys

/-- The tables of a domain that have rows of events. -/
def DomainName.eventTables (d : DomainName) : List Table :=
  match d.kind with
  | .inl k => k.domain.entryTable :: (k.domain.singletonTable.map (·.table)).toList
  | .inr k => [k.domain.table]

/-- The entity and the state version of an event. -/
def groupOf (y : Int64 × SubstateEvent) : Address × Int64 := (y.2.entity, y.1)

/-- The key of a group once entities have numbers. -/
def groupKeyOf (number : Numbering) (p : Address × Int64) : GroupKey := ⟨number p.1, p.2⟩

namespace LedgerExtension

variable (x : LedgerExtension)

/-- The entities with the state versions that a domain's events are of, in the order in which they
first come. -/
def touched (d : DomainName) : List (Address × Int64) := distinctKeys ((x.eventsOf d).map groupOf)

/-- The events of a domain in the order in which it makes their rows. -/
def arranged (d : DomainName) : List (Int64 × SubstateEvent) :=
  match d.kind with
  | .inl _ => grouped groupOf (x.eventsOf d)
  | .inr _ => x.eventsOf d

/-- Those of them whose rows are in a table. -/
def rowEvents (d : DomainName) (t : Table) : List (Int64 × SubstateEvent) :=
  (x.arranged d).filter (·.2.substate.table? = some t)

variable {x}

theorem perm_arranged (d : DomainName) : (x.arranged d).Perm (x.eventsOf d) := by
  unfold arranged
  split
  · exact perm_grouped ..
  · exact .refl _

theorem mem_arranged {d : DomainName} {y : Int64 × SubstateEvent} :
    y ∈ x.arranged d ↔ y ∈ x.eventsOf d := (perm_arranged d).mem_iff

end LedgerExtension

theorem Substate.table?_of_domain {t : Substate} {d : DomainName} (h : t.domain? = some d) :
    ∃ u ∈ d.eventTables, t.table? = some u := by
  cases t <;> cases h
  case roleAssignmentOwner => exact ⟨_, List.mem_cons_of_mem _ List.mem_cons_self, rfl⟩
  all_goals exact ⟨_, List.mem_cons_self, rfl⟩

/-- Each event of a domain has its row in one of the domain's tables. -/
theorem LedgerExtension.perm_rowEvents (x : LedgerExtension) (d : DomainName) :
    (d.eventTables.flatMap (x.rowEvents d)).Perm (x.eventsOf d) := by
  have hnd : (d.eventTables.map some).Nodup := by cases d <;> decide
  have h : ((d.eventTables.map some).flatMap fun t =>
      (x.arranged d).filter (·.2.substate.table? = t)).Perm (x.arranged d) := by
    refine perm_flatMap_filter hnd fun y hy => ?_
    obtain ⟨u, hu, he⟩ := Substate.table?_of_domain (mem_eventsOf.1 (mem_arranged.1 hy)).2
    rw [he]
    exact List.mem_map_of_mem hu
  rw [List.flatMap_map] at h
  exact h.trans (perm_arranged d)

/-! ## Rows that are made -/

section Made

variable {number : Numbering} {x : LedgerExtension}

/-- Rows are told by their ids and by what they are of. -/
theorem eq_enumerated {χ : Type} {first : Int64} {rows : List (HistoryRow χ)} {ys : List (GroupKey × χ)}
    (hys : rows.map (fun r => (r.groupKey, r.change)) = ys)
    (hids : rows.map (·.id) = idsFrom first rows.length) : rows = enumerated first ys := by
  subst hys
  induction rows generalizing first with
  | nil => rfl
  | cons r rows ih =>
    obtain ⟨hid, hids⟩ := List.cons.inj hids
    rw [List.map_cons, enumerated, ← ih hids, ← hid]
    rfl

theorem map_reread_enumerated {χ : Type} {f : χ → χ} {ys : List (GroupKey × χ)}
    (h : ∀ y ∈ ys, f y.2 = y.2) (first : Int64) :
    (enumerated first ys).map (·.map f) = enumerated first ys := by
  induction ys generalizing first with
  | nil => rfl
  | cons y ys ih =>
    rw [enumerated, List.map_cons, ih fun y' hy' => h y' (List.mem_cons_of_mem y hy'), HistoryRow.map,
      h y List.mem_cons_self]

/-- What is read off some values, under consecutive ids, has the rows of these. -/
theorem map_enumerated_filterMap {χ : Type} {f : Int64 × SubstateEvent → Option (GroupKey × χ)}
    {encode : HistoryRow χ → Row} {t : Table}
    (hf : ∀ y, (f y).isSome ↔ y.2.substate.table? = some t)
    (hrow : ∀ y z id, f y = some z → encode ⟨id, z.1.stateVersion, z.1.entity, z.2⟩ = eventRow number id y)
    (first : Int64) (ys : List (Int64 × SubstateEvent)) : (enumerated first (ys.filterMap f)).map encode
      = eventRows number first (ys.filter (·.2.substate.table? = some t)) := by
  induction ys generalizing first with
  | nil => rfl
  | cons y ys ih =>
    rcases hy : f y with _ | z
    · have hno : ¬y.2.substate.table? = some t := fun h => by simpa [hy] using (hf y).2 h
      rw [List.filterMap_cons_none hy, List.filter_cons_of_neg (by simpa using hno), ih]
    · have hyes : y.2.substate.table? = some t := (hf y).1 (by rw [hy]; rfl)
      rw [List.filterMap_cons_some hy, List.filter_cons_of_pos (by simpa using hyes), enumerated,
        List.map_cons, ih, hrow y z first hy]
      rfl

namespace ListKind

variable {k : ListKind}

theorem entryTable_iff (k : ListKind) (t : Substate) : t.table? = some k.domain.entryTable
    ↔ t.domain? = some k.domain.name ∧ t.subKey?.isSome := by
  cases k <;> cases t <;>
    simp only [Substate.table?, Substate.domain?, Substate.subKey?, Option.isSome_some,
      Option.isSome_none] <;> decide

theorem singletonTable_iff {u : SingletonTable k.domain.Singleton}
    (hu : k.domain.singletonTable = some u) (t : Substate) : t.table? = some u.table
      ↔ ((k.meaning number t).bind Meaning.singleton?).isSome := by
  cases k <;> cases hu
  rw [Substate.singleton_meaning]
  cases t
  case roleAssignmentOwner => exact iff_of_true rfl rfl
  all_goals exact iff_of_false (by simp only [Substate.table?]; decide) Bool.false_ne_true

theorem encodeEntry_eq {y : Int64 × SubstateEvent} {z : GroupKey × k.domain.Change}
    (h : k.entryChange? number y = some z) (id : Int64) :
    k.domain.encodeEntry ⟨id, z.1.stateVersion, z.1.entity, z.2⟩ = eventRow number id y := by
  obtain ⟨version, ⟨entity, t⟩⟩ := y
  obtain ⟨key, c⟩ := z
  obtain ⟨rfl, hm⟩ := entryChange?_eq_some h
  cases k <;> cases t <;> cases hm
  case authorizedDepositor badge _ => cases badge <;> rfl
  all_goals rfl

theorem encodeSingleton_eq {u : SingletonTable k.domain.Singleton}
    (hu : k.domain.singletonTable = some u) {y : Int64 × SubstateEvent}
    {z : GroupKey × k.domain.Singleton} (h : k.singletonChange? number y = some z) (id : Int64) :
    u.encode ⟨id, z.1.stateVersion, z.1.entity, z.2⟩ = eventRow number id y := by
  obtain ⟨version, ⟨entity, t⟩⟩ := y
  obtain ⟨v, hv, rfl⟩ := Option.map_eq_some_iff.1 h
  cases k <;> cases hu
  cases t <;> cases hv
  rfl

theorem visits_eventsOf (k : ListKind) (number : Numbering) (x : LedgerExtension) :
    k.visits number (x.eventsOf k.domain.name) = k.visits number x.events := by
  rw [visits, visits, LedgerExtension.eventsOf, List.filterMap_filter]
  refine List.filterMap_congr fun y _ => ?_
  have hmeaning := k.isSome_meaning (s := y.2.substate) number
  split
  · rfl
  · rename_i hd
    rw [Option.not_isSome_iff_eq_none.1 fun h => hd (decide_eq_true (hmeaning.1 h))]
    rfl

theorem arranged_name (k : ListKind) (x : LedgerExtension) :
    x.arranged k.domain.name = grouped groupOf (x.eventsOf k.domain.name) := by
  cases k <;> rfl

section Numbers

variable (hn : ∀ y ∈ x.eventsOf k.domain.name, ∀ z ∈ x.eventsOf k.domain.name,
  number y.2.entity = number z.2.entity → y.2.entity = z.2.entity)

include hn

/-- The changes that events mean come together as the events do. -/
theorem visited_visits : GroupedChanges.visited (k.visits number x.events)
      = k.visits number (x.arranged k.domain.name)
    ∧ distinctKeys ((k.visits number x.events).map (·.1))
      = (x.touched k.domain.name).map (groupKeyOf number) := by
  have hf : ∀ y ∈ x.eventsOf k.domain.name, ∃ z, (k.meaning number y.2.substate).map
      ((⟨number y.2.entity, y.1⟩ : GroupKey), ·) = some z ∧ z.1 = groupKeyOf number (groupOf y) := by
    intro y hy
    obtain ⟨m, hm⟩ := Option.isSome_iff_exists.1
      ((k.isSome_meaning number).2 (LedgerExtension.mem_eventsOf.1 hy).2)
    exact ⟨_, by rw [hm]; rfl, rfl⟩
  have hg : ∀ y ∈ x.eventsOf k.domain.name, ∀ z ∈ x.eventsOf k.domain.name,
      groupKeyOf number (groupOf y) = groupKeyOf number (groupOf z) → groupOf y = groupOf z := by
    intro y hy z hz he
    obtain ⟨hentity, hversion⟩ := GroupKey.mk.inj he
    exact Prod.ext (hn y hy z hz hentity) hversion
  rw [← visits_eventsOf, arranged_name]
  exact ⟨grouped_filterMap hf hg, distinctKeys_filterMap hf hg⟩

/-- The rows that a domain with lists makes of events are those of its events as they come together,
with an aggregate for each entity and state version. -/
theorem made_arranged {C R : NewRows k.domain} {start : String → Int64}
    (hR : k.made C start number x.events = .ok R) :
    R.entries = enumerated (start k.domain.entryTable.name)
        ((x.arranged k.domain.name).filterMap (k.entryChange? number))
      ∧ (∀ u, k.domain.singletonTable = some u → R.singletons = enumerated (start u.table.name)
        ((x.arranged k.domain.name).filterMap (k.singletonChange? number)))
      ∧ R.aggregates.map Aggregate.groupKey = (x.touched k.domain.name).map (groupKeyOf number)
      ∧ R.aggregates.map (·.id)
        = idsFrom (start k.domain.aggregateSchema.table.name) R.aggregates.length := by
  obtain ⟨hentries, haggregates, hsingletons⟩ := NewRows.tells_rowsAfter hR
  obtain ⟨hentryIds, haggregateIds, hsingletonIds⟩ := NewRows.ids_rowsAfter hR
  obtain ⟨hvisited, hkeys⟩ := visited_visits hn
  refine ⟨?_, fun u hu => ?_, ?_, haggregateIds⟩
  · rw [groups, GroupedChanges.entriesOf_toList, hvisited, entryChanges_visits] at hentries
    exact eq_enumerated hentries hentryIds
  · rw [groups, GroupedChanges.singletonsOf_toList, hvisited, singletonChanges_visits] at hsingletons
    refine eq_enumerated hsingletons (hsingletonIds.trans ?_)
    simp [ListDomain.firstIds, hu]
  · rw [haggregates, groups, GroupedChanges.map_toList, hkeys]

end Numbers

/-- The rows of a domain's entries, read back, are those of its events. -/
theorem reread_entries (hfree : x.IsFloatFree) (first : Int64) :
    ((enumerated first ((x.arranged k.domain.name).filterMap (k.entryChange? number))).map
      (·.map k.reread)).map k.domain.encodeEntry
        = eventRows number first (x.rowEvents k.domain.name k.domain.entryTable) := by
  rw [map_reread_enumerated fun z hz => ?_]
  · refine map_enumerated_filterMap (fun y => ?_) (fun y z id hz => encodeEntry_eq hz id) first _
    rw [k.isSome_entryChange?, entryTable_iff]
  · obtain ⟨y, hy, hz⟩ := List.mem_filterMap.1 hz
    have hm := (entryChange?_eq_some hz).2
    refine reread_of_floatFree fun d hd => ?_
    rw [documents_entry hm] at hd
    exact hfree y (LedgerExtension.mem_eventsOf.1 (LedgerExtension.mem_arranged.1 hy)).1 d hd

theorem reread_singletons {u : SingletonTable k.domain.Singleton}
    (hu : k.domain.singletonTable = some u) (hfree : x.IsFloatFree) (first : Int64) :
    ((enumerated first ((x.arranged k.domain.name).filterMap (k.singletonChange? number))).map
      (·.map k.rereadSingleton)).map u.encode
        = eventRows number first (x.rowEvents k.domain.name u.table) := by
  rw [map_reread_enumerated fun z hz => ?_]
  · refine map_enumerated_filterMap (fun y => ?_) (fun y z id hz => encodeSingleton_eq hu hz id) first _
    rw [singletonChange?, Option.isSome_map, singletonTable_iff hu]
  · obtain ⟨y, hy, hz⟩ := List.mem_filterMap.1 hz
    obtain ⟨v, hv, rfl⟩ := Option.map_eq_some_iff.1 hz
    obtain ⟨m, hm, hmv⟩ := Option.bind_eq_some_iff.1 hv
    cases m with
    | entry c => cases hmv
    | singleton v' =>
      cases hmv
      refine rereadSingleton_of_floatFree fun d hd => ?_
      rw [documents_singleton hm] at hd
      exact hfree y (LedgerExtension.mem_eventsOf.1 (LedgerExtension.mem_arranged.1 hy)).1 d hd

end ListKind

namespace PlainKind

variable {k : PlainKind}

theorem table_iff (k : PlainKind) (t : Substate) :
    t.table? = some k.domain.table ↔ (k.domain.meaningOf t).isSome := by
  rw [k.isSome_meaningOf]
  cases k <;> cases t <;> simp only [Substate.table?, Substate.domain?] <;> decide

/-- The change that an event means, under its entity and its state version. -/
def change? (k : PlainKind) (number : Numbering) (y : Int64 × SubstateEvent) :
    Option (GroupKey × k.domain.Change) :=
  (k.domain.meaningOf y.2.substate).map (⟨number y.2.entity, y.1⟩, ·)

theorem encode_eq {y : Int64 × SubstateEvent} {z : GroupKey × k.domain.Change}
    (h : k.change? number y = some z) (id : Int64) :
    k.domain.encode ⟨id, z.1.stateVersion, z.1.entity, z.2⟩ = eventRow number id y := by
  obtain ⟨version, ⟨entity, t⟩⟩ := y
  obtain ⟨c, hc, rfl⟩ := Option.map_eq_some_iff.1 h
  cases k <;> cases t <;> cases hc <;> rfl

theorem changes_eq (k : PlainKind) (number : Numbering) (xs : List (Int64 × SubstateEvent)) :
    k.changes number xs = xs.filterMap (k.change? number) := by
  rw [changes, visits, List.map_filterMap]
  refine List.filterMap_congr fun y _ => ?_
  rw [Option.map_map]
  rfl

theorem changes_arranged (k : PlainKind) (number : Numbering) (x : LedgerExtension) :
    k.changes number x.events = (x.arranged k.domain.name).filterMap (k.change? number) := by
  have harranged : x.arranged k.domain.name = x.eventsOf k.domain.name := by cases k <;> rfl
  rw [harranged, LedgerExtension.eventsOf, List.filterMap_filter, changes_eq]
  refine List.filterMap_congr fun y _ => ?_
  have hmeaning := k.isSome_meaningOf (s := y.2.substate)
  rcases hm : k.domain.meaningOf y.2.substate with _ | c
  · simp [change?, hm]
  · have hd := hmeaning.1 (by rw [hm]; rfl)
    simp [hd]

/-- The rows of a domain without lists, read back, are those of its events. -/
theorem reread_made (hfree : x.IsFloatFree) (start : String → Int64) :
    ((k.made start number x.events).map (·.map k.reread)).map k.domain.encode
      = eventRows number (start k.domain.table.name) (x.rowEvents k.domain.name k.domain.table) := by
  rw [made, changes_arranged, map_reread_enumerated fun z hz => ?_]
  · refine map_enumerated_filterMap (fun y => ?_) (fun y z id hz => encode_eq hz id) _ _
    rw [change?, Option.isSome_map, table_iff]
  · obtain ⟨y, hy, hz⟩ := List.mem_filterMap.1 hz
    obtain ⟨c, hc, rfl⟩ := Option.map_eq_some_iff.1 hz
    have hdocuments := documents_change hc
    unfold reread
    rcases hr : k.reread? c with _ | c'
    · rfl
    · refine reread?_of_floatFree (fun d hd => ?_) hr
      rw [hdocuments] at hd
      exact hfree y (LedgerExtension.mem_eventsOf.1 (LedgerExtension.mem_arranged.1 hy)).1 d hd

end PlainKind

end Made

end LedgerHistory
