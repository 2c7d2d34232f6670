import LedgerHistory.Proofs.Recording.Growth

/-!
# Histories

A history is what was committed, each extension with the configuration under which it was recorded.
A state records a history when the rows of each domain are consistent and tell the groups of the
events that the domain recorded, and the addresses that these need are in the directory
(`Snapshot.Records`). Events that are no older than a chronicle add to all of it
(`ListKind.made_eq`), and there is room for the ids of what they add (`Snapshot.Sound.hasRoom`).
-/

namespace LedgerHistory

/-- What was committed, in order. -/
abbrev History := List (Configuration × LedgerExtension)

namespace History

variable (h : History)

/-- The events of all extensions. -/
def events : List (Int64 × SubstateEvent) := h.flatMap (·.2.events)

/-- Whether the versions do not decrease. -/
def InOrder : Prop := h.events.Pairwise (·.1 ≤ ·.1)

/-- The groups that a domain with lists recorded, extension by extension. -/
def groups (number : Numbering) (k : ListKind) : List k.domain.Group :=
  h.flatMap fun p => if k.domain.name ∈ p.1.domains.enabled then k.groups number p.2.events else []

/-- The changes that a domain without lists recorded. -/
def changes (number : Numbering) (k : PlainKind) : List (GroupKey × k.domain.Change) :=
  h.flatMap fun p => if k.domain.name ∈ p.1.domains.enabled then k.changes number p.2.events else []

/-- The states that attempts lead to from the empty one, whether they fail or not, with a bound of
the values that each sequence issued. -/
inductive Reaches : History → Nat → Snapshot → Prop
  | start : Reaches [] 0 {}
  | failed {h : History} {n : Nat} {s : Snapshot} {config : Configuration} {x : LedgerExtension}
      {e : InvocationError} {w' : World} (hs : Reaches h n s)
      (hrun : (recordExtension config x).Runs s.idle (.error e) w') :
      Reaches h (n + (1 + 2 * x.eventCount)) w'.committed
  | recorded {h : History} {n : Nat} {s : Snapshot} {config : Configuration} {x : LedgerExtension}
      {report : InvocationReport} {w' : World} (hs : Reaches h n s)
      (hrun : (recordExtension config x).Runs s.idle (.ok report) w') :
      Reaches (h ++ [(config, x)]) (n + (1 + 2 * x.eventCount)) w'.committed

end History

/-- The rows of each domain without lists. -/
abbrev Histories := ∀ k : PlainKind, List (HistoryRow k.domain.Change)

/-- The numbers of the entities in a state. -/
def Snapshot.number (s : Snapshot) : Numbering := Routing.numbering s.idle

/-- The group with its changes as they are read back. -/
def ListKind.rereadGroup (k : ListKind) (g : k.domain.Group) : k.domain.Group :=
  (g.1, ⟨g.2.entries.map k.reread, g.2.singletons.map k.rereadSingleton⟩)

/-- Whether a state records a history, in these rows. -/
structure Snapshot.Records (h : History) (s : Snapshot) (C : Chronicles) (H : Histories) : Prop where
  known : ∀ p ∈ h, ∀ y ∈ p.2.events, ∀ q ∈ demandsOf p.1.domains.enabled y,
    ∃ e, s.entities.get? q.1 = some e
  routable : ∀ p ∈ h, ∀ y ∈ p.2.events, y.2.IsRoutable p.1.domains.enabled
  holds (k : ListKind) : s.Holds k (C k)
  consistent (k : ListKind) : (C k).Consistent
  tells (k : ListKind) : (C k).Tells ((h.groups s.number k).map k.rereadGroup)
  plain (k : PlainKind) : s.rows k.domain.table.name = (H k).map k.domain.encode
  increasing (k : PlainKind) : (H k).Pairwise (·.id < ·.id)
  plainTells (k : PlainKind) : (H k).map (fun x => (x.groupKey, x.change))
    = (h.changes s.number k).map fun y => (y.1, k.reread y.2)
  others {name : String} (hn : ∀ d : DomainName, ∀ t ∈ d.tables, t.name ≠ name) : s.rows name = []

/-! ## Numbers -/

section Numbers

variable {number number' : Numbering} {xs : List (Int64 × SubstateEvent)} {ds : List DomainName}

theorem mem_demandsOf {y : Int64 × SubstateEvent} {d : DomainName}
    (hd : y.2.substate.domain? = some d) (hm : d ∈ ds) :
    (y.2.entity, y.1) ∈ demandsOf ds y ∧ ∀ a ∈ y.2.substate.mentions, (a, y.1) ∈ demandsOf ds y := by
  have hdem : demandsOf ds y = (y.2.entity, y.1) :: y.2.substate.mentions.map (·, y.1) := by
    simp only [demandsOf, hd, if_pos hm]
  rw [hdem]
  exact ⟨List.mem_cons_self, fun a ha => List.mem_cons_of_mem _ (List.mem_map_of_mem ha)⟩

/-- What events mean depends on the numbers of the demanded addresses alone. -/
theorem ListKind.visits_congr {k : ListKind} (hk : k.domain.name ∈ ds)
    (h : ∀ y ∈ xs, ∀ q ∈ demandsOf ds y, number q.1 = number' q.1) :
    k.visits number xs = k.visits number' xs := by
  refine List.filterMap_congr fun y hy => ?_
  by_cases hd : y.2.substate.domain? = some k.domain.name
  · obtain ⟨hentity, hmentions⟩ := mem_demandsOf hd hk
    rw [h y hy _ hentity, k.meaning_congr fun a ha => h y hy _ (hmentions a ha)]
  · have hnone : ∀ number, k.meaning number y.2.substate = none := fun number => by
      rw [← Option.not_isSome_iff_eq_none, k.isSome_meaning]
      exact hd
    rw [hnone, hnone]
    rfl

theorem ListKind.made_congr {k : ListKind} (hk : k.domain.name ∈ ds)
    (h : ∀ y ∈ xs, ∀ q ∈ demandsOf ds y, number q.1 = number' q.1) {start start' : String → Int64}
    (hstart : k.domain.firstIds start = k.domain.firstIds start') (C : NewRows k.domain) :
    k.made C start number xs = k.made C start' number' xs := by
  unfold made groups greatest
  rw [hstart, visits_congr hk h]

/-- The keys of the groups are those of the events of the domain. -/
theorem ListKind.mem_groupKeys (k : ListKind) (number : Numbering)
    {xs : List (Int64 × SubstateEvent)} {key : GroupKey} : key ∈ (k.groups number xs).map (·.1)
      ↔ ∃ y ∈ xs, y.2.substate.domain? = some k.domain.name ∧ key = ⟨number y.2.entity, y.1⟩ := by
  rw [groups, GroupedChanges.map_toList, mem_distinctKeys, List.mem_map]
  constructor
  · rintro ⟨⟨key, m⟩, hz, rfl⟩
    obtain ⟨y, hy, hm, rfl⟩ := mem_visits_iff.1 hz
    exact ⟨y, hy, (k.isSome_meaning number).1 (by rw [hm]; rfl), rfl⟩
  · rintro ⟨y, hy, hd, rfl⟩
    obtain ⟨m, hm⟩ := Option.isSome_iff_exists.1 ((k.isSome_meaning number).2 hd)
    exact ⟨(_, m), mem_visits_iff.2 ⟨y, hy, hm, rfl⟩, rfl⟩

theorem PlainKind.changes_congr {k : PlainKind} (hk : k.domain.name ∈ ds)
    (h : ∀ y ∈ xs, ∀ q ∈ demandsOf ds y, number q.1 = number' q.1) :
    k.changes number xs = k.changes number' xs := by
  unfold changes
  congr 1
  refine List.filterMap_congr fun y hy => ?_
  by_cases hd : y.2.substate.domain? = some k.domain.name
  · rw [h y hy _ (mem_demandsOf hd hk).1]
  · have hnone : k.domain.meaningOf y.2.substate = none := by
      rw [← Option.not_isSome_iff_eq_none, k.isSome_meaningOf]
      exact hd
    rw [hnone]
    rfl

namespace History

variable {h h' : History}

theorem groups_congr (hn : ∀ p ∈ h, ∀ y ∈ p.2.events, ∀ q ∈ demandsOf p.1.domains.enabled y,
    number q.1 = number' q.1) (k : ListKind) : h.groups number k = h.groups number' k := by
  refine List.flatMap_congr fun p hp => ?_
  split
  · rename_i hk
    rw [ListKind.groups, ListKind.visits_congr hk (hn p hp), ListKind.groups]
  · rfl

theorem changes_congr (hn : ∀ p ∈ h, ∀ y ∈ p.2.events, ∀ q ∈ demandsOf p.1.domains.enabled y,
    number q.1 = number' q.1) (k : PlainKind) : h.changes number k = h.changes number' k := by
  refine List.flatMap_congr fun p hp => ?_
  split
  · rename_i hk
    rw [PlainKind.changes_congr hk (hn p hp)]
  · rfl

theorem events_append (h h' : History) : (h ++ h').events = h.events ++ h'.events :=
  List.flatMap_append

theorem InOrder.of_append (ho : InOrder (h ++ h')) : h.InOrder := by
  unfold InOrder at ho ⊢
  rw [events_append] at ho
  exact (List.pairwise_append.1 ho).1

/-- The key of a group is that of an event that the domain recorded. -/
theorem event_of_mem_groups {k : ListKind} {g : k.domain.Group} (hg : g ∈ h.groups number k) :
    ∃ p ∈ h, k.domain.name ∈ p.1.domains.enabled ∧ ∃ y ∈ p.2.events,
      y.2.substate.domain? = some k.domain.name ∧ g.1 = ⟨number y.2.entity, y.1⟩ := by
  obtain ⟨p, hp, hg⟩ := List.mem_flatMap.1 hg
  split at hg
  · rename_i hk
    obtain ⟨y, hy, hd, he⟩ := (k.mem_groupKeys number).1 (List.mem_map_of_mem hg)
    exact ⟨p, hp, hk, y, hy, hd, he⟩
  · cases hg

end History

end Numbers

/-! ## Rows behind a chronicle -/

section Rows

variable {k : ListKind} {B R : NewRows k.domain} {start : String → Int64} {number : Numbering}
  {xs : List (Int64 × SubstateEvent)}

theorem foldl_raiseVersion {α : Type} (version : α → Int64) (ys : List α) (m : Int64) :
    ∃ m', ys.foldl (fun m y => raiseVersion m (version y)) (some m) = some m' ∧ m ≤ m'
      ∧ (∀ y ∈ ys, version y ≤ m') ∧ (m' = m ∨ ∃ y ∈ ys, version y = m') := by
  induction ys generalizing m with
  | nil => exact ⟨m, rfl, Int64.le_refl m, nofun, .inl rfl⟩
  | cons y ys ih =>
    have hmax := toInt_max (version y) m
    have hstep : raiseVersion (some m) (version y) = some (max (version y) m) := rfl
    obtain ⟨m', hm', hle, hall, hattained⟩ := ih (max (version y) m)
    rw [Int64.le_iff_toInt_le] at hle
    refine ⟨m', by rw [List.foldl_cons, hstep, hm'], ?_, fun z hz => ?_, ?_⟩
    · rw [Int64.le_iff_toInt_le]
      omega
    · rcases List.mem_cons.1 hz with rfl | hz
      · rw [Int64.le_iff_toInt_le]
        omega
      · exact hall z hz
    · rcases hattained with rfl | ⟨z, hz, he⟩
      · by_cases hm : m.toInt ≤ (version y).toInt
        · exact .inr ⟨y, List.mem_cons_self, Int64.toInt_inj.1 (by omega)⟩
        · exact .inl (Int64.toInt_inj.1 (by omega))
      · exact .inr ⟨z, List.mem_cons_of_mem y hz, he⟩

/-- The greatest version visited is that of a change, and no change is more recent. -/
theorem ListKind.greatest_eq {y : GroupKey × Meaning k.domain.Change k.domain.Singleton}
    (hy : y ∈ k.visits number xs) : ∃ m, k.greatest number xs = some m
      ∧ (∀ z ∈ k.visits number xs, z.1.stateVersion ≤ m)
      ∧ ∃ z ∈ k.visits number xs, z.1.stateVersion = m := by
  unfold greatest
  rcases hv : k.visits number xs with _ | ⟨z, zs⟩
  · rw [hv] at hy
    cases hy
  · obtain ⟨m, hm, hle, hall, hattained⟩ := foldl_raiseVersion
      (fun y : GroupKey × Meaning k.domain.Change k.domain.Singleton => y.1.stateVersion) zs
      z.1.stateVersion
    refine ⟨m, hm, fun u hu => ?_, ?_⟩
    · rcases List.mem_cons.1 hu with rfl | hu
      · exact hle
      · exact hall u hu
    · rcases hattained with rfl | ⟨u, hu, he⟩
      · exact ⟨z, List.mem_cons_self, rfl⟩
      · exact ⟨u, List.mem_cons_of_mem z hu, he⟩

theorem NewRows.Consistent.within_eq (hB : B.Consistent) {v : Int64} (hv : B.Until v) :
    B.within (some v) = B := by
  have hentry : ∀ {χ : Type} {rows : List (HistoryRow χ)},
      (∀ r ∈ rows, r.groupKey ∈ B.aggregates.map Aggregate.groupKey) →
      rows.filter (fun r => LedgerHistory.within (some v) r.stateVersion) = rows := by
    intro χ rows hg
    refine List.filter_eq_self.2 fun r hr => ?_
    exact decide_eq_true (NewRows.stateVersion_le hv (hg r hr))
  have haggregate : B.aggregates.filter (fun a => LedgerHistory.within (some v) a.stateVersion)
      = B.aggregates := by
    refine List.filter_eq_self.2 fun a ha => ?_
    exact decide_eq_true (hv a ha)
  unfold within
  rw [hentry hB.entryGroups, haggregate, hentry hB.singletonGroups]

/-- Events that are no older than a chronicle add to all of it. -/
theorem ListKind.made_eq (hB : B.Consistent)
    (hv : ∀ z ∈ k.visits number xs, B.Until z.1.stateVersion) :
    k.made B start number xs = B.rowsAfter (k.domain.firstIds start) (k.groups number xs) := by
  rcases hvisits : k.visits number xs with _ | ⟨z, zs⟩
  · have hgroups : k.groups number xs = [] := by
      rw [groups, hvisits]
      rfl
    rw [made, hgroups]
    rfl
  · have hz : z ∈ k.visits number xs := by
      rw [hvisits]
      exact List.mem_cons_self
    obtain ⟨m, hm, hle, _⟩ := greatest_eq hz
    rw [made, hm, hB.within_eq]
    intro a ha
    exact Int64.le_trans (hv z hz a ha) (hle z hz)

theorem ListKind.isEmpty_singleton (ht : k.domain.singletonTable = none) (v : k.domain.Singleton) :
    False := by
  cases k with
  | roleAssignment => cases ht
  | metadata | methodRoyalty | resourcePreference | authorizedDepositor => exact nomatch v

theorem ListKind.singletons_eq_nil (ht : k.domain.singletonTable = none)
    (rows : List k.domain.SingletonRow) : rows = [] := by
  cases rows with
  | nil => rfl
  | cons x rows => exact (isEmpty_singleton ht x.change).elim

/-- In a domain without singletons aggregates have none. -/
theorem NewRows.Consistent.bare (hB : B.Consistent) : ∀ a ∈ B.aggregates,
    k.domain.aggregateSchema.singletonColumn = none → a.singleton = none := by
  intro a ha hc
  have ht : k.domain.singletonTable = none := by
    cases k with
    | roleAssignment => cases hc
    | metadata | methodRoyalty | resourcePreference | authorizedDepositor => rfl
  rw [hB.singleton a ha, ListKind.singletons_eq_nil ht B.singletons]
  rfl

theorem ListKind.consistent_reread (k : ListKind) {B R : NewRows k.domain}
    (hB : (B ++ R).Consistent) : (B ++ k.rereadRows R).Consistent := by
  refine hB.congr ?_ rfl ?_
  · rw [NewRows.entries_append, NewRows.entries_append]
    refine List.rel_append (List.forall₂_same.2 fun x _ => ⟨rfl, rfl, rfl, rfl⟩) ?_
    rw [rereadRows, List.forall₂_map_right_iff, List.forall₂_same]
    intro x _
    refine ⟨rfl, rfl, ?_, ?_⟩
    · show k.domain.keyOf x.change = k.domain.keyOf (k.reread x.change)
      rcases hc : k.reread? x.change with _ | c
      · simp [reread, hc]
      · simp [reread, hc, (k.keyOf_reread? hc).1]
    · show k.domain.isDeletion x.change = k.domain.isDeletion (k.reread x.change)
      rcases hc : k.reread? x.change with _ | c
      · simp [reread, hc]
      · simp [reread, hc, (k.keyOf_reread? hc).2]
  · rw [NewRows.singletons_append, NewRows.singletons_append]
    refine List.rel_append (List.forall₂_same.2 fun x _ => ⟨rfl, rfl⟩) ?_
    rw [rereadRows, List.forall₂_map_right_iff, List.forall₂_same]
    exact fun x _ => ⟨rfl, rfl⟩

theorem ListKind.rereadRows_append (k : ListKind) (R R' : NewRows k.domain) :
    k.rereadRows (R ++ R') = k.rereadRows R ++ k.rereadRows R' := by
  simp only [rereadRows, NewRows.entries_append, NewRows.aggregates_append,
    NewRows.singletons_append, List.map_append]
  rfl

theorem ListKind.singletonsOf_rereadGroup (k : ListKind) (gs : List k.domain.Group) :
    NewRows.singletonsOf (gs.map k.rereadGroup)
      = (NewRows.singletonsOf gs).map fun y => (y.1, k.rereadSingleton y.2) := by
  simp [NewRows.singletonsOf, rereadGroup, List.flatMap_map, List.map_flatMap, Function.comp_def]

theorem ListKind.tells_reread {gs : List k.domain.Group} (h : R.Tells gs) :
    (k.rereadRows R).Tells (gs.map k.rereadGroup) := by
  refine ⟨?_, ?_, ?_⟩
  · have he : NewRows.entriesOf (gs.map k.rereadGroup)
        = (NewRows.entriesOf gs).map fun y => (y.1, k.reread y.2) := by
      simp [NewRows.entriesOf, rereadGroup, List.flatMap_map, List.map_flatMap, Function.comp_def]
    rw [he, ← h.entries, rereadRows, List.map_map, List.map_map]
    rfl
  · rw [List.map_map]
    exact h.aggregates
  · rw [singletonsOf_rereadGroup, ← h.singletons, rereadRows, List.map_map, List.map_map]
    rfl

end Rows

/-! ## Room -/

section Room

variable {n : Nat} {s : Snapshot} {config : Configuration} {x : LedgerExtension} {k : ListKind}
  {C R : NewRows k.domain}

theorem Snapshot.Sound.id_le (hs : s.Sound n) {α : Type} {name : String} {xs : List α}
    {encode : α → Row} (id : α → Int64) (hat : ∀ x, Row.at (encode x) 0 = .int8 (id x))
    (hrows : s.rows name = xs.map encode) {y : α} (hy : y ∈ xs) :
    (id y).toInt ≤ (s.sequence (Table.sequenceNameOf name)).toInt := by
  refine hs.ids name (id y) ?_
  rw [hs.keyed.ids_eq id hat hrows]
  exact List.mem_map_of_mem hy

/-- The ids of a chronicle are those that its sequences have issued. -/
theorem Snapshot.Sound.below (hs : s.Sound n) (hroom : n + (1 + 2 * x.eventCount) < 2 ^ 63)
    (hC : s.Holds k C) : C.Below (k.domain.firstIds s.nextIds) := by
  have hlt : ∀ {id : Int64} {name : String},
      id.toInt ≤ (s.sequence (Table.sequenceNameOf name)).toInt → id < s.nextIds name := by
    intro id name hle
    have hnext := toInt_nextIds hs hroom name
    rw [Int64.lt_iff_toInt_lt]
    omega
  refine ⟨fun x hx => hlt ?_, fun a ha => hlt ?_, fun x hx => ?_⟩
  · exact hs.id_le (·.id) k.at_encodeEntry hC.entries hx
  · exact hs.id_le (·.id) (fun _ => rfl) hC.aggregates ha
  · rcases ht : k.domain.singletonTable with _ | t
    · exact (ListKind.isEmpty_singleton ht x.change).elim
    · have hfirst : (k.domain.firstIds s.nextIds).singleton = s.nextIds t.table.name := by
        simp [ListDomain.firstIds, ht]
      rw [hfirst]
      exact hlt (hs.id_le (·.id) (ListKind.at_encodeSingleton ht) (hC.singletons ht) hx)

theorem Snapshot.Sound.hasRoom (hs : s.Sound n) (hroom : n + (1 + 2 * x.eventCount) < 2 ^ 63)
    {number : Numbering} (hR : k.made C s.nextIds number x.events = .ok R) :
    (k.domain.firstIds s.nextIds).HasRoom R := by
  obtain ⟨he, ha, hv⟩ := ListKind.length_made_le hR
  have hnext : ∀ name, (s.nextIds name).toInt ≤ n + 1 := fun name => by
    have hbound := hs.bound (Table.sequenceNameOf name)
    rw [toInt_nextIds hs hroom]
    omega
  rw [LedgerExtension.eventCount] at hroom
  have hentry := hnext k.domain.entryTable.name
  have haggregate := hnext k.domain.aggregateSchema.table.name
  refine ⟨?_, ?_, ?_⟩
  · show (s.nextIds _).toInt + _ < _
    omega
  · show (s.nextIds _).toInt + _ < _
    omega
  · rcases ht : k.domain.singletonTable with _ | t
    · rw [ListKind.singletons_eq_nil ht R.singletons]
      simp [ListDomain.firstIds, ht]
    · have hsingleton := hnext t.table.name
      have hfirst : (k.domain.firstIds s.nextIds).singleton = s.nextIds t.table.name := by
        simp [ListDomain.firstIds, ht]
      rw [hfirst]
      omega

end Room

end LedgerHistory
