import LedgerHistory.Proofs.Recording.AllOrNothing
import LedgerHistory.Proofs.Recording.Reaches

/-!
# Lists as of a version

In every state that attempts lead to, the list of an aggregate has the ids of the entries that show
the live events of its entity up to its version: for each key the last event, if that is no deletion,
the most recent in front (`History.Reaches.lists_asOf`).
-/

namespace LedgerHistory

/-- What tells the entries of an entity apart in events. -/
inductive SubKey
  | metadata (key : String)
  | role (roleKey : String) (scope : ModuleId)
  | method (name : String)
  | resource (resource : Address)
  | badge (badge : DepositorBadge)
  deriving DecidableEq

/-- The key of the entry that a substate changes. -/
def Substate.subKey? : Substate → Option SubKey
  | .metadataEntry key _ _ => some (.metadata key)
  | .roleAssignmentRule roleKey scope _ => some (.role roleKey scope)
  | .methodRoyalty name _ _ => some (.method name)
  | .resourcePreference resource _ => some (.resource resource)
  | .authorizedDepositor badge _ => some (.badge badge)
  | _ => none

/-- The events up to a version that change an entry of an entity in a domain. -/
def entryEvents (d : DomainName) (a : Address) (v : Int64) (es : List (Int64 × SubstateEvent)) :
    List (Int64 × SubstateEvent) :=
  es.filter fun y => y.2.entity = a ∧ y.1 ≤ v ∧ y.2.substate.domain? = some d
    ∧ y.2.substate.subKey?.isSome

/-- For each key the last of these events, unless it is a deletion, the most recent in front. -/
def liveEvents (d : DomainName) (a : Address) (v : Int64) (es : List (Int64 × SubstateEvent)) :
    List (Int64 × SubstateEvent) :=
  live (fun y => y.2.substate.subKey?) (fun y => y.2.substate.isDeletion) (entryEvents d a v es)

/-- Whether an id names one entry row, which shows an event of an entity. -/
def Snapshot.Shows (s : Snapshot) (k : ListKind) (e : EntityId) (id : Int64)
    (y : Int64 × SubstateEvent) : Prop :=
  ∃ c, k.meaning s.number y.2.substate = some (.entry c)
    ∧ (s.rows k.domain.entryTable.name).filter (fun row => Row.at row 0 = .int8 id)
      = [k.domain.encodeEntry ⟨id, y.1, e, c⟩]

/-! ## Entries and events -/

section Meaning

variable {number : Numbering} {k : ListKind} {s s' : Substate} {c c' : k.domain.Change}

theorem ListKind.exists_entry_iff (k : ListKind) (number : Numbering) (s : Substate) :
    ((k.meaning number s).bind Meaning.entry?).isSome
      ↔ s.domain? = some k.domain.name ∧ s.subKey?.isSome := by
  cases k <;> cases s <;> simp [meaning, Meaning.entry?, Substate.domain?, Substate.subKey?, domain,
    Metadata.domain, RoleAssignment.domain, MethodRoyalty.domain, Preference.domain, Depositor.domain]

/-- Entries have the same key when their events do, if the numbers of the mentioned entities are
distinct. -/
theorem ListKind.keyOf_eq_iff (h : k.meaning number s = some (.entry c))
    (h' : k.meaning number s' = some (.entry c'))
    (hn : ∀ a ∈ s.mentions, ∀ b ∈ s'.mentions, number a = number b → a = b) :
    k.domain.keyOf c = k.domain.keyOf c' ↔ s.subKey? = s'.subKey? := by
  cases k <;> cases s <;> cases h <;> cases s' <;> cases h'
  case metadata => simp [Substate.subKey?, domain, Metadata.domain]
  case roleAssignment =>
    simp [Substate.subKey?, domain, RoleAssignment.domain]
  case methodRoyalty => simp [Substate.subKey?, domain, MethodRoyalty.domain]
  case resourcePreference r _ r' _ =>
    have := hn r List.mem_cons_self r' List.mem_cons_self
    simp only [Substate.subKey?, domain, Preference.domain, Option.some.injEq, SubKey.resource.injEq]
    exact ⟨this, congrArg number⟩
  case authorizedDepositor badge _ badge' _ =>
    have := hn badge.resourceAddress List.mem_cons_self badge'.resourceAddress List.mem_cons_self
    simp only [Substate.subKey?, domain, Depositor.domain, Option.some.injEq, SubKey.badge.injEq]
    rcases badge with r | ⟨r, i⟩ <;> rcases badge' with r' | ⟨r', i'⟩ <;>
      simp only [Depositor.Key.ofBadge, DepositorBadge.resourceAddress, Depositor.Key.resource.injEq,
        Depositor.Key.nonFungible.injEq, DepositorBadge.resource.injEq,
        DepositorBadge.nonFungible.injEq, reduceCtorEq] at this ⊢
    · exact ⟨this, congrArg number⟩
    · exact and_congr_left fun _ => ⟨this, congrArg number⟩

end Meaning

/-- What an event changes of an entry, under the key of its group. -/
def ListKind.entryChange? (k : ListKind) (number : Numbering) (y : Int64 × SubstateEvent) :
    Option (GroupKey × k.domain.Change) :=
  ((k.meaning number y.2.substate).bind Meaning.entry?).map (⟨number y.2.entity, y.1⟩, ·)

theorem ListKind.entryChanges_visits (k : ListKind) (number : Numbering)
    (xs : List (Int64 × SubstateEvent)) :
    GroupedChanges.entryChanges (k.visits number xs) = xs.filterMap (k.entryChange? number) := by
  rw [GroupedChanges.entryChanges, visits, List.filterMap_filterMap]
  refine List.filterMap_congr fun y _ => ?_
  unfold entryChange?
  rcases k.meaning number y.2.substate with _ | m <;> rfl

theorem ListKind.entryChange?_eq_some {k : ListKind} {number : Numbering}
    {y : Int64 × SubstateEvent} {z : GroupKey × k.domain.Change}
    (h : k.entryChange? number y = some z) :
    z.1 = ⟨number y.2.entity, y.1⟩ ∧ k.meaning number y.2.substate = some (.entry z.2) := by
  obtain ⟨c, hc, rfl⟩ := Option.map_eq_some_iff.1 h
  obtain ⟨m, hm, he⟩ := Option.bind_eq_some_iff.1 hc
  cases m with
  | entry c' =>
    cases he
    exact ⟨rfl, hm⟩
  | singleton v => cases he

theorem ListKind.isSome_entryChange? (k : ListKind) (number : Numbering) (y : Int64 × SubstateEvent) :
    (k.entryChange? number y).isSome
      ↔ y.2.substate.domain? = some k.domain.name ∧ y.2.substate.subKey?.isSome := by
  rw [entryChange?, Option.isSome_map]
  exact k.exists_entry_iff number y.2.substate

/-- Whether an entry of a chronicle is that of an event of a history. -/
structure Snapshot.EntryOf (s : Snapshot) (h : History) (C : Chronicles) (k : ListKind) (a : Address)
    (x : k.domain.Entry) (y : Int64 × SubstateEvent) : Prop where
  entry : x ∈ (C k).entries
  entity : x.entity = s.number a
  event : y ∈ h.events
  change : k.entryChange? s.number y = some (x.groupKey, x.change)

section Histories

variable {h : History} {number : Numbering} {k : ListKind}

/-- The entries that the groups of a history have for an entity are those of its events, in order. -/
theorem History.filter_entriesOf (ho : h.InOrder)
    (hk : ∀ p ∈ h, k.domain.name ∈ p.1.domains.enabled) (e : EntityId) :
    (NewRows.entriesOf (h.groups number k)).filter (·.1.entity = e)
      = (h.events.filterMap (k.entryChange? number)).filter (·.1.entity = e) := by
  rw [groups, NewRows.entriesOf, List.flatMap_assoc, events, List.filterMap_flatMap,
    List.filter_flatMap, List.filter_flatMap]
  refine List.flatMap_congr fun p hp => ?_
  rw [if_pos (hk p hp), ← ListKind.entryChanges_visits]
  show (NewRows.entriesOf (k.groups number p.2.events)).filter _ = _
  rw [ListKind.groups, GroupedChanges.entriesOf_toList, GroupedChanges.entryChanges,
    GroupedChanges.entryChanges, GroupedChanges.filter_keyed, GroupedChanges.filter_keyed,
    GroupedChanges.filter_visited (k.pairwise_visits (pairwise_events ho hp))]

theorem ListKind.reread_of_floatFree {c : k.domain.Change}
    (hf : ∀ d ∈ k.documents c, d.IsFloatFree) : k.reread c = c := by
  unfold reread
  rcases hc : k.reread? c with _ | c'
  · rfl
  · exact ListKind.reread?_of_floatFree hf hc

theorem ListKind.rereadSingleton_of_floatFree {v : k.domain.Singleton}
    (hf : ∀ d ∈ k.singletonDocuments v, d.IsFloatFree) : k.rereadSingleton v = v := by
  unfold rereadSingleton
  rcases hv : k.rereadSingleton? v with _ | v'
  · rfl
  · exact ListKind.rereadSingleton?_of_floatFree hf hv

/-- Groups without doubles are read back as they are. -/
theorem History.map_rereadGroup (hf : ∀ p ∈ h, p.2.IsFloatFree) :
    (h.groups number k).map k.rereadGroup = h.groups number k := by
  refine (List.map_congr_left fun g hg => ?_).trans (List.map_id _)
  obtain ⟨p, hp, hg⟩ := List.mem_flatMap.1 hg
  split at hg
  · obtain ⟨hentries, hsingletons⟩ := GroupedChanges.mem_group hg
    have he : g.2.entries.map k.reread = g.2.entries := by
      refine (List.map_congr_left fun c hc => ?_).trans (List.map_id _)
      obtain ⟨y, hy, hm, _⟩ := ListKind.mem_visits_iff.1 ((hentries c).1 hc)
      refine ListKind.reread_of_floatFree fun d hd => hf p hp y hy d ?_
      rwa [← ListKind.documents_entry hm]
    have hs : g.2.singletons.map k.rereadSingleton = g.2.singletons := by
      refine (List.map_congr_left fun v hv => ?_).trans (List.map_id _)
      obtain ⟨y, hy, hm, _⟩ := ListKind.mem_visits_iff.1 ((hsingletons v).1 hv)
      refine ListKind.rereadSingleton_of_floatFree fun d hd => hf p hp y hy d ?_
      rwa [← ListKind.documents_singleton hm]
    rw [ListKind.rereadGroup, he, hs]
    rfl
  · cases hg

end Histories

/-! ## Lists -/

section Lists

variable {h : History} {n : Nat} {s : Snapshot} {C : Chronicles} {H : Histories} {k : ListKind}
  (hs : s.Sound n) (hr : s.Records h C H)

include hr

/-- The addresses that an event of an enabled domain names are in the directory. -/
theorem Snapshot.Records.known_of_domain (hk : ∀ p ∈ h, k.domain.name ∈ p.1.domains.enabled)
    {y : Int64 × SubstateEvent} (hy : y ∈ h.events)
    (hd : y.2.substate.domain? = some k.domain.name) :
    (∃ e, s.entities.get? y.2.entity = some e)
      ∧ ∀ a ∈ y.2.substate.mentions, ∃ e, s.entities.get? a = some e := by
  obtain ⟨p, hp, hy⟩ := List.mem_flatMap.1 hy
  obtain ⟨hentity, hmentions⟩ := mem_demandsOf hd (hk p hp)
  exact ⟨hr.known p hp y hy _ hentity, fun a ha => hr.known p hp y hy _ (hmentions a ha)⟩

omit hr in
include hs in
theorem Snapshot.Sound.number_inj {a b : Address} (ha : ∃ e, s.entities.get? a = some e)
    (hb : ∃ e, s.entities.get? b = some e) (he : s.number a = s.number b) : a = b := by
  obtain ⟨e, ha⟩ := ha
  obtain ⟨e', hb⟩ := hb
  rw [Snapshot.number_of_get? ha, Snapshot.number_of_get? hb] at he
  exact hs.numbered.distinct ha hb he

include hs

/-- The entries of an entity up to a version go with its events. -/
theorem Snapshot.Records.forall₂_entries (ho : h.InOrder)
    (hk : ∀ p ∈ h, k.domain.name ∈ p.1.domains.enabled) (hf : ∀ p ∈ h, p.2.IsFloatFree) {a : Address}
    (ha : ∃ e, s.entities.get? a = some e) (v : Int64) :
    List.Forall₂ (s.EntryOf h C k a) (upTo (s.number a) v (C k).entries)
      (entryEvents k.domain.name a v h.events) := by
  have htells := (hr.tells k).entries
  rw [History.map_rereadGroup hf] at htells
  have hentity : (NewRows.entriesOf (h.groups s.number k)).filter _ = _ :=
    History.filter_entriesOf ho hk (s.number a)
  rw [← htells] at hentity
  have hrows : (upTo (s.number a) v (C k).entries).map (fun x => (x.groupKey, x.change))
      = (entryEvents k.domain.name a v h.events).filterMap (k.entryChange? s.number) := by
    rw [map_upTo, hentity, List.filter_filter, List.filter_filterMap, entryEvents, List.filterMap_filter]
    refine List.filterMap_congr fun y hy => ?_
    rcases hc : k.entryChange? s.number y with _ | z
    · simp
    · have hsome := (k.isSome_entryChange? s.number y).1 (by rw [hc]; rfl)
      have hz := (ListKind.entryChange?_eq_some hc).1
      have hiff : s.number y.2.entity = s.number a ↔ y.2.entity = a :=
        ⟨fun he => hs.number_inj (hr.known_of_domain hk hy hsome.1).1 ha he, congrArg s.number⟩
      have hcond : (decide (z.1.stateVersion ≤ v) && decide (z.1.entity = s.number a))
          = decide (y.2.entity = a ∧ y.1 ≤ v ∧ y.2.substate.domain? = some k.domain.name
            ∧ y.2.substate.subKey?.isSome) := by
        rw [hz, Bool.eq_iff_iff]
        simp [hiff, hsome, and_comm]
      rw [Option.filter_some, hcond]
  have hself : (entryEvents k.domain.name a v h.events).filter
      (fun y => (k.entryChange? s.number y).isSome) = entryEvents k.domain.name a v h.events := by
    refine List.filter_eq_self.2 fun y hy => ?_
    obtain ⟨_, hy⟩ := List.mem_filter.1 hy
    exact (k.isSome_entryChange? s.number y).2 (of_decide_eq_true hy).2.2
  have hrel := forall₂_of_map_eq_filterMap hrows
  rw [hself] at hrel
  refine (forall₂_mem hrel).imp fun x y hxy => ?_
  obtain ⟨hx, hy, hxy⟩ := hxy
  obtain ⟨hx, hxe⟩ := List.mem_filter.1 hx
  exact ⟨hx, (of_decide_eq_true hxe).1, (List.mem_filter.1 hy).1, hxy⟩

/-- The live entries of an entity up to a version go with its live events. -/
theorem Snapshot.Records.forall₂_liveEvents (ho : h.InOrder)
    (hk : ∀ p ∈ h, k.domain.name ∈ p.1.domains.enabled) (hf : ∀ p ∈ h, p.2.IsFloatFree) {a : Address}
    (ha : ∃ e, s.entities.get? a = some e) (v : Int64) :
    List.Forall₂ (s.EntryOf h C k a) (NewRows.liveEntries (upTo (s.number a) v (C k).entries))
      (liveEvents k.domain.name a v h.events) := by
  refine forall₂_live (fun x x' y y' hxy hxy' => ?_) (fun x y hxy => ?_)
    (hr.forall₂_entries hs ho hk hf ha v)
  · have hm := (ListKind.entryChange?_eq_some hxy.change).2
    have hm' := (ListKind.entryChange?_eq_some hxy'.change).2
    have hd := (k.isSome_entryChange? s.number y).1 (by rw [hxy.change]; rfl)
    have hd' := (k.isSome_entryChange? s.number y').1 (by rw [hxy'.change]; rfl)
    rw [← ListKind.keyOf_eq_iff hm hm' fun b hb b' hb' he => hs.number_inj
      ((hr.known_of_domain hk hxy.event hd.1).2 b hb)
      ((hr.known_of_domain hk hxy'.event hd'.1).2 b' hb') he]
    unfold ListDomain.entryKey
    rw [hxy.entity, hxy'.entity, Prod.mk.injEq]
    exact and_iff_right rfl
  · exact ListKind.isDeletion_of_meaning (ListKind.entryChange?_eq_some hxy.change).2

omit hs in
/-- The row of an entry is the only one under its id. -/
theorem Snapshot.Records.filter_rows {x : k.domain.Entry} (hx : x ∈ (C k).entries) :
    (s.rows k.domain.entryTable.name).filter (fun row => Row.at row 0 = .int8 x.id)
      = [k.domain.encodeEntry x] := by
  have hid : ∀ x : k.domain.Entry, Row.at (k.domain.encodeEntry x) 0 = .int8 x.id := fun x => by
    cases k <;> rfl
  have hnd := NewRows.nodup_ids (hr.consistent k).ordered
  rw [(hr.holds k).entries, List.filter_map]
  have hone := filter_eq_singleton hnd hx
  refine (congrArg (List.map k.domain.encodeEntry) ?_).trans (congrArg (List.map _) hone)
  refine List.filter_congr fun y _ => ?_
  simp [hid]

end Lists

/-- In every state that attempts lead to while no sequence runs out, the list of each aggregate of a
domain that is enabled throughout has the ids of the entries that show the live events of its entity
up to its version. -/
theorem History.Reaches.lists_asOf {h : History} {n : Nat} {s : Snapshot} (hs : h.Reaches n s)
    (ho : h.InOrder) (hroom : n < 2 ^ 63) (hf : ∀ p ∈ h, p.2.IsFloatFree) {k : ListKind}
    (hk : ∀ p ∈ h, k.domain.name ∈ p.1.domains.enabled) {row : Row}
    (hrow : row ∈ s.rows k.domain.aggregateSchema.table.name) :
    ∃ (g : Aggregate) (a : Address) (e : Entity), k.domain.aggregateSchema.decode row = .ok g
      ∧ s.entities.get? a = some e ∧ e.id = g.entity ∧ g.list.ids.Pairwise (· > ·)
      ∧ List.Forall₂ (s.Shows k g.entity) g.list.ids
        (liveEvents k.domain.name a g.stateVersion h.events) := by
  obtain ⟨hsound, C, H, hr⟩ := hs.records ho hroom
  have hconsistent := hr.consistent k
  rw [(hr.holds k).aggregates] at hrow
  obtain ⟨g, hg, rfl⟩ := List.mem_map.1 hrow
  obtain ⟨p, hp, _, y, hy, hd, hkey⟩ := hr.event_of_aggregate hg
  have hentity : s.number y.2.entity = g.entity := congrArg GroupKey.entity hkey.symm
  have hknown := (hr.known_of_domain hk (List.mem_flatMap.2 ⟨p, hp, hy⟩) hd).1
  obtain ⟨e, he⟩ := hknown
  have hlive := hr.forall₂_liveEvents hsound ho hk hf ⟨e, he⟩ g.stateVersion
  rw [hentity] at hlive
  refine ⟨g, y.2.entity, e, k.decode_aggregateRow (hconsistent.bare g hg), he, ?_, ?_, ?_⟩
  · rw [← hentity, Snapshot.number_of_get? he]
  · rw [hconsistent.lists g hg]
    refine pairwise_live ?_
    exact (List.Pairwise.sublist List.filter_sublist hconsistent.ordered.entries).imp fun h => h.2
  · rw [hconsistent.lists g hg, List.forall₂_map_left_iff]
    refine hlive.imp fun x y hxy => ?_
    obtain ⟨hkey, hm⟩ := ListKind.entryChange?_eq_some hxy.change
    obtain ⟨_, hv⟩ := GroupKey.mk.inj hkey
    refine ⟨x.change, hm, ?_⟩
    rw [hr.filter_rows hxy.entry, ← hv, ← hentity, ← hxy.entity]

/-- The last list of the account has its new name in front of its tags, and no longer the removed
entry or the first name. -/
theorem History.Reaches.lists_asOf_sample : ∃ s : Snapshot,
    History.Reaches [({}, sampleExtension), ({}, amendingSample)] 14 s
      ∧ ListKind.metadata.domain.aggregateRow ⟨3, 3, ⟨1⟩, ⟨[5, 3]⟩, none⟩
        ∈ s.rows Metadata.domain.aggregateSchema.table.name
      ∧ (∃ e, s.entities.get? ⟨"account_a", by decide⟩ = some e ∧ e.id = ⟨1⟩)
      ∧ List.Forall₂ (s.Shows .metadata ⟨1⟩) [5, 3]
        [(3, ⟨⟨"account_a", by decide⟩, .metadataEntry "name" (some [2]) false⟩),
          (2, ⟨⟨"account_a", by decide⟩, .metadataEntry "tags" (some [9]) false⟩)] := by
  obtain ⟨_, w, hcalm, hsampled⟩ := exists_sampled
  obtain ⟨_, w', hcalm', hc⟩ := hsampled.exists_amended
  have hs : History.Reaches [({}, sampleExtension), ({}, amendingSample)] 14 w'.committed :=
    .recorded (.recorded .start (Script.runs_of_calm hcalm)) (Script.runs_of_calm hcalm')
  have ho : History.InOrder [({}, sampleExtension), ({}, amendingSample)] := by
    unfold History.InOrder
    decide
  have hrow : ListKind.metadata.domain.aggregateRow ⟨3, 3, ⟨1⟩, ⟨[5, 3]⟩, none⟩
      ∈ w'.committed.rows ListKind.metadata.domain.aggregateSchema.table.name := by
    rw [(hc.lists (k := .metadata) (by decide) hsampled.made_amending).aggregates]
    exact List.mem_map_of_mem (List.mem_append_right _ (List.mem_pair.2 (.inr rfl)))
  have haccount := hc.get?_of_some hsampled.get?_account
  have hfree : ∀ p ∈ [(({} : Configuration), sampleExtension), ({}, amendingSample)],
      p.2.IsFloatFree := fun p hp => by
    rcases List.mem_pair.1 hp with rfl | rfl <;>
      exact LedgerExtension.isFloatFree_of_documents (by decide)
  have henabled : ∀ p ∈ [(({} : Configuration), sampleExtension), ({}, amendingSample)],
      ListKind.metadata.domain.name ∈ p.1.domains.enabled := fun p hp => by
    rcases List.mem_pair.1 hp with rfl | rfl <;> decide
  obtain ⟨g, a, e, hdecode, ha, hid, _, hshown⟩ := hs.lists_asOf ho (by decide) hfree henabled hrow
  rw [ListKind.metadata.decode_aggregateRow fun _ => rfl] at hdecode
  cases hdecode
  obtain rfl := hc.sound.numbered.distinct ha haccount hid
  exact ⟨_, hs, hrow, ⟨_, haccount, rfl⟩, hshown⟩

end LedgerHistory
