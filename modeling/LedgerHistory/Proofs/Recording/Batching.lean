import LedgerHistory.Proofs.Recording.Renaming
import LedgerHistory.Proofs.Recording.Replay

/-!
# Batches of transactions

It makes no difference whether transactions are recorded at once or in two extensions, if those of
the second one are of later versions: either way they are recorded or not, and the states that this
leads to are the same but for the new ids (`History.Reaches.run_append`). What an invocation carries
forward in memory is what the next one reads back from the store.
-/

namespace LedgerHistory

/-! ## Two extensions, one behind the other -/

/-- The transactions of both extensions, in order. -/
instance : Append LedgerExtension := ⟨fun x y => ⟨x.transactions ++ y.transactions⟩⟩

theorem LedgerExtension.events_append (x y : LedgerExtension) :
    (x ++ y).events = x.events ++ y.events := List.flatMap_append

theorem LedgerExtension.eventCount_append (x y : LedgerExtension) :
    (x ++ y).eventCount = x.eventCount + y.eventCount := by
  rw [eventCount, events_append, List.length_append, ← eventCount, ← eventCount]

section Events

variable {xs ys : List (Int64 × SubstateEvent)} (number : Numbering)

/-- Events of later versions form groups of their own. -/
theorem ListKind.groups_append (k : ListKind) (hlt : ∀ a ∈ xs, ∀ b ∈ ys, a.1 < b.1) :
    k.groups number (xs ++ ys) = k.groups number xs ++ k.groups number ys := by
  rw [groups, visits, List.filterMap_append]
  refine GroupedChanges.toList_append fun z hz z' hz' he => ?_
  obtain ⟨a, ha, _, hv⟩ := exists_visit_iff.1 ⟨z, hz, rfl⟩
  obtain ⟨b, hb, _, hv'⟩ := exists_visit_iff.1 ⟨z', hz', rfl⟩
  have hab := hlt a ha b hb
  rw [hv, hv', he] at hab
  exact Int64.lt_irrefl hab

theorem ListKind.lt_of_mem_groups {k : ListKind} {number number' : Numbering}
    (hlt : ∀ a ∈ xs, ∀ b ∈ ys, a.1 < b.1) : ∀ g ∈ k.groups number xs, ∀ g' ∈ k.groups number' ys,
      g.1.stateVersion < g'.1.stateVersion := by
  intro g hg g' hg'
  obtain ⟨a, ha, _, hkey⟩ := (k.mem_groupKeys number).1 (List.mem_map_of_mem hg)
  obtain ⟨b, hb, _, hkey'⟩ := (k.mem_groupKeys number').1 (List.mem_map_of_mem hg')
  rw [hkey, hkey']
  exact hlt a ha b hb

theorem PlainKind.changes_append (k : PlainKind) :
    k.changes number (xs ++ ys) = k.changes number xs ++ k.changes number ys := by
  rw [changes, visits, List.filterMap_append, List.map_append]
  rfl

variable {h : History} {config : Configuration} {x y : LedgerExtension}

theorem History.events_joined : History.events (h ++ [(config, x ++ y)])
    = History.events (h ++ [(config, x)] ++ [(config, y)]) := by
  simp [events, LedgerExtension.events_append]

theorem History.InOrder.split (ho : History.InOrder (h ++ [(config, x ++ y)])) :
    History.InOrder (h ++ [(config, x)] ++ [(config, y)]) := by
  unfold History.InOrder at ho ⊢
  rwa [← History.events_joined]

theorem History.changes_joined (k : PlainKind) :
    History.changes (h ++ [(config, x ++ y)]) number k
      = History.changes (h ++ [(config, x)] ++ [(config, y)]) number k := by
  rw [changes_concat, changes_concat, changes_concat, LedgerExtension.events_append,
    k.changes_append, List.append_assoc]
  by_cases hk : k.domain.name ∈ config.domains.enabled
  · simp only [if_pos hk]
  · simp only [if_neg hk, List.append_nil]

variable (hlt : ∀ a ∈ x.events, ∀ b ∈ y.events, a.1 < b.1)

include hlt

theorem History.groups_joined (k : ListKind) : History.groups (h ++ [(config, x ++ y)]) number k
    = History.groups (h ++ [(config, x)] ++ [(config, y)]) number k := by
  rw [groups_concat, groups_concat, groups_concat, LedgerExtension.events_append,
    k.groups_append _ hlt, List.append_assoc]
  by_cases hk : k.domain.name ∈ config.domains.enabled
  · simp only [if_pos hk]
  · simp only [if_neg hk, List.append_nil]

/-- A state that records extensions at once records them one behind the other. -/
theorem Snapshot.Records.split {s : Snapshot} {C : Chronicles} {H : Histories}
    (hr : s.Records (h ++ [(config, x ++ y)]) C H) :
    s.Records (h ++ [(config, x)] ++ [(config, y)]) C H := by
  have hmem : ∀ {p}, p ∈ h ++ [(config, x)] ++ [(config, y)] → ∃ p' ∈ h ++ [(config, x ++ y)],
      p'.1 = p.1 ∧ ∀ z ∈ p.2.events, z ∈ p'.2.events := by
    intro p hp
    rw [List.append_assoc, List.mem_append] at hp
    rcases hp with hp | hp
    · exact ⟨p, List.mem_append_left _ hp, rfl, fun _ hz => hz⟩
    · refine ⟨_, List.mem_append_right h List.mem_cons_self, ?_⟩
      rw [LedgerExtension.events_append]
      rcases List.mem_pair.1 hp with rfl | rfl
      · exact ⟨rfl, fun z hz => List.mem_append_left _ hz⟩
      · exact ⟨rfl, fun z hz => List.mem_append_right _ hz⟩
  refine ⟨fun p hp z hz => ?_, fun p hp z hz => ?_, hr.holds, hr.consistent, fun k => ?_, hr.plain,
    hr.increasing, fun k => ?_, hr.others⟩
  · obtain ⟨p', hp', he, hsub⟩ := hmem hp
    rw [← he]
    exact hr.known p' hp' z (hsub z hz)
  · obtain ⟨p', hp', he, hsub⟩ := hmem hp
    rw [← he]
    exact hr.routable p' hp' z (hsub z hz)
  · rw [← History.groups_joined _ hlt]
    exact hr.tells k
  · rw [← History.changes_joined]
    exact hr.plainTells k

end Events

/-! ## Rows that can be stored -/

section Storable

variable {k : ListKind} {R R' : NewRows k.domain}

theorem ListKind.storable_append : k.Storable (R ++ R') ↔ k.Storable R ∧ k.Storable R' := by
  constructor
  · intro h
    obtain ⟨he, he'⟩ := List.forall_mem_append.1 h.entries
    obtain ⟨ha, ha'⟩ := List.forall_mem_append.1 h.aggregates
    exact ⟨⟨he, ha, fun t ht => (List.forall_mem_append.1 (h.singletons t ht)).1⟩,
      ⟨he', ha', fun t ht => (List.forall_mem_append.1 (h.singletons t ht)).2⟩⟩
  · rintro ⟨h, h'⟩
    exact ⟨List.forall_mem_append.2 ⟨h.entries, h'.entries⟩,
      List.forall_mem_append.2 ⟨h.aggregates, h'.aggregates⟩,
      fun t ht => List.forall_mem_append.2 ⟨h.singletons t ht, h'.singletons t ht⟩⟩

/-- Whether rows can be stored depends on what they tell and not on their ids. -/
theorem ListKind.Storable.of_tells {gs : List k.domain.Group} {f : NewIds} (h : k.Storable R)
    (ht : R.Tells gs) (ht' : R'.Tells gs) (ha : R'.aggregates = R.aggregates.map (·.rename f)) :
    k.Storable R' := by
  have hchange : ∀ {χ : Type} {xs ys : List (HistoryRow χ)},
      xs.map (fun x => (x.groupKey, x.change)) = ys.map (fun x => (x.groupKey, x.change)) →
      ∀ y ∈ ys, ∃ x ∈ xs, x.change = y.change := by
    intro χ xs ys he y hy
    have hm : (y.groupKey, y.change) ∈ xs.map fun x => (x.groupKey, x.change) :=
      he ▸ List.mem_map_of_mem hy
    obtain ⟨x, hx, hxy⟩ := List.mem_map.1 hm
    exact ⟨x, hx, congrArg Prod.snd hxy⟩
  refine ⟨fun y hy => ?_, fun b hb => ?_, fun t hst y hy => ?_⟩
  · obtain ⟨x, hx, hc⟩ := hchange (ht.entries.trans ht'.entries.symm) y hy
    exact (h.entries x hx).congr (k.sameShape_encodeEntry hc)
  · rw [ha] at hb
    obtain ⟨a, ham, rfl⟩ := List.mem_map.1 hb
    refine (h.aggregates a ham).congr (k.sameShape_aggregateRow ?_ ?_)
    · exact (List.length_map f.entry).symm
    · exact Option.isSome_map.symm
  · obtain ⟨x, hx, hc⟩ := hchange (ht.singletons.trans ht'.singletons.symm) y hy
    exact (h.singletons t hst x hx).congr (ListKind.sameShape_encodeSingleton hst hc)

theorem PlainKind.storable_made_iff (k : PlainKind) {start : String → Int64} {number : Numbering}
    {xs : List (Int64 × SubstateEvent)} :
    (∀ z ∈ k.made start number xs, k.domain.table.Storable (k.domain.encode z))
      ↔ ∀ y ∈ k.changes number xs, ∀ z : HistoryRow k.domain.Change, z.change = y.2 →
        k.domain.table.Storable (k.domain.encode z) := by
  have hmade : (k.made start number xs).map (fun z => (z.groupKey, z.change)) = k.changes number xs :=
    map_enumerated _ _
  rw [← hmade, List.forall_mem_map]
  constructor
  · exact fun h z hz z' hc => (h z hz).congr (k.sameShape_encode hc.symm)
  · exact fun h z hz => h z hz z rfl

end Storable

/-! ## Extensions with and without events -/

section Any

variable {n : Nat} {s : Snapshot} {C : Chronicles} {config : Configuration} {x : LedgerExtension}

theorem Snapshot.admits_of_isEmpty (hx : x.isEmpty = true) : s.Admits C config x := by
  have hnil := x.events_eq_nil hx
  refine ⟨?_, fun k _ => ⟨{}, ?_, nofun, nofun, fun _ _ => nofun⟩, fun k _ => ?_⟩
  · rw [hnil]
    exact nofun
  · rw [hnil]
    rfl
  · rw [hnil]
    exact nofun

theorem prepared_of_isEmpty (hx : x.isEmpty = true) (w : World) :
    w.prepared config x = w.advanceAll (config.domains.tables.map (·.sequenceName)) := by
  rw [World.prepared, x.events_eq_nil hx]
  rfl

variable (hs : s.Sound n) (hC : s.Chronicled C) (hroom : n + (1 + 2 * x.eventCount) < 2 ^ 63)

include hs hC hroom

theorem calm_isOk_iff_admits :
    (∃ report, ((recordExtension config x).calm s.idle).1 = .ok report) ↔ s.Admits C config x := by
  rcases hx : x.isEmpty with _ | _
  · rw [← calm_recordExtension_isOk_iff hs hC.recalls hroom hx]
    exact exists_congr fun report => ⟨fun he => ⟨_, Prod.ext he rfl⟩, fun ⟨_, he⟩ => by rw [he]⟩
  · refine ⟨fun _ => Snapshot.admits_of_isEmpty hx, fun _ => ?_⟩
    rw [calm_recordExtension_of_isEmpty hx]
    exact ⟨_, rfl⟩

/-- What is admitted leads to a state with the new rows behind the old ones, where the next entity
gets the number that it would have got in the same invocation. -/
theorem completed_of_admits (ha : s.Admits C config x) :
    s.Completed n C config x ((recordExtension config x).calm s.idle).2.committed
      ∧ ((recordExtension config x).calm s.idle).2.committed.sequence entitySequence
        = (s.idle.prepared config x).committed.sequence entitySequence
      ∧ ∀ name, s.rows name <+: ((recordExtension config x).calm s.idle).2.committed.rows name := by
  rcases hx : x.isEmpty with _ | _
  · obtain ⟨report, w', hcalm⟩ := (calm_recordExtension_isOk_iff hs hC.recalls hroom hx).2 ha
    rw [hcalm]
    refine ⟨completed_of_calm hs hC hroom hx hcalm, ?_, (grown_of_calm hs.addressed hx hcalm).rows⟩
    obtain ⟨bss, s₂, a, hout, hissued, happ, hcommitted⟩ := committed_of_calm hs hC.recalls hx hcalm
    have hentity : entitySequence ∉ a.lastIssued.map (·.1.sequenceName) := by
      intro hm
      obtain ⟨y, hy, he⟩ := List.mem_map.1 hm
      obtain ⟨hty, _⟩ := (Allocator.mem_lastIssued hissued config.domains.nodup_tables
        fun t ht => (rowCount_le hs hroom hout ht).2).1 hy
      obtain ⟨d, _, htd⟩ := DomainSwitches.mem_tables hty
      exact d.sequenceName_ne _ htd he
    rw [hcommitted, Allocator.sequence_raiseAll_of_notMem hentity, Snapshot.sequence, happ.sequences,
      alone_prepared]
    rfl
  · have hw : (recordExtension config x).calm s.idle = (_, s.idle) :=
      calm_recordExtension_of_isEmpty hx config s.idle
    have hnil := x.events_eq_nil hx
    rw [hw]
    refine ⟨⟨hs.mono (by omega), ha, ?_, fun {k} hk {R} hR => ?_, fun {k} hk => ?_,
      fun _ => rfl⟩, ?_, fun name => List.prefix_refl _⟩
    · rw [prepared_of_isEmpty hx, (World.working_advanceAll ..).2]
      rfl
    · rw [hnil] at hR
      cases hR
      show s.Holds k (C k ++ {})
      rw [NewRows.append_empty]
      exact hC.holds k
    · rw [hnil]
      exact (List.append_nil _).symm
    · rw [prepared_of_isEmpty hx, sequence_advanceAll_entity]

end Any

/-! ## What is admitted -/

section Numbering

variable {n : Nat} {s s₁ : Snapshot} {C : Chronicles} {config : Configuration}
  {x y : LedgerExtension}

theorem prepared_joined (config : Configuration) (x y : LedgerExtension) (w : World) :
    w.prepared config (x ++ y) = (w.prepared config x).demandAll
      (y.events.flatMap (demandsOf config.domains.enabled)) := by
  rw [World.prepared, LedgerExtension.events_append, List.flatMap_append, World.demandAll_append]
  rfl

/-- What the first events need has its numbers once these are prepared. -/
theorem Snapshot.numbering_joined : ∀ z ∈ x.events, ∀ q ∈ demandsOf config.domains.enabled z,
    s.numbering config (x ++ y) q.1 = s.numbering config x q.1 := by
  intro z hz q hq
  obtain ⟨e, he⟩ : ∃ e, (s.idle.prepared config x).working.entities.get? q.1 = some e :=
    World.exists_get?_demandAll (List.mem_flatMap.2 ⟨z, hz, hq⟩)
  have hlater : (s.idle.prepared config (x ++ y)).working.entities.get? q.1 = some e := by
    rw [prepared_joined]
    exact World.get?_demandAll_of_some he _
  exact (Routing.numbering_of_get? hlater).trans (Routing.numbering_of_get? he).symm

/-- The next invocation brings the directory to where the same one would have brought it. -/
theorem Snapshot.Completed.entities_joined (hc : s.Completed n C config x s₁)
    (hseq : s₁.sequence entitySequence
      = (s.idle.prepared config x).committed.sequence entitySequence) :
    (s₁.idle.prepared config y).working.entities
      = (s.idle.prepared config (x ++ y)).working.entities := by
  rw [prepared_joined]
  refine World.entities_demandAll_congr ?_ ?_ _
  · rw [(World.working_advanceAll ..).2]
    exact hc.entities
  · rw [sequence_advanceAll_entity]
    exact hseq

theorem PlainKind.changes_joined {k : PlainKind} (hk : k.domain.name ∈ config.domains.enabled) :
    k.changes (s.numbering config (x ++ y)) (x ++ y).events
      = k.changes (s.numbering config x) x.events
        ++ k.changes (s.numbering config (x ++ y)) y.events := by
  rw [LedgerExtension.events_append, k.changes_append,
    PlainKind.changes_congr hk Snapshot.numbering_joined]

theorem ListKind.groups_joined {k : ListKind} (hk : k.domain.name ∈ config.domains.enabled)
    (hlt : ∀ a ∈ x.events, ∀ b ∈ y.events, a.1 < b.1) :
    k.groups (s.numbering config (x ++ y)) (x ++ y).events
      = k.groups (s.numbering config x) x.events
        ++ k.groups (s.numbering config (x ++ y)) y.events := by
  have hfirst : k.groups (s.numbering config (x ++ y)) x.events
      = k.groups (s.numbering config x) x.events := by
    rw [groups, groups, ListKind.visits_congr hk Snapshot.numbering_joined]
  rw [LedgerExtension.events_append, k.groups_append _ hlt, hfirst]

end Numbering

section Joined

variable {h : History} {n : Nat} {s s₁ : Snapshot} {C C₁ : Chronicles} {H H₁ : Histories}
  {config : Configuration} {x y : LedgerExtension} {k : ListKind}
  (hs : s.Sound n) (hr : s.Records h C H) (ho : History.InOrder (h ++ [(config, x ++ y)]))
  (hlt : ∀ a ∈ x.events, ∀ b ∈ y.events, a.1 < b.1)
  (hroom : n + (1 + 2 * x.eventCount) + (1 + 2 * y.eventCount) < 2 ^ 63)

include hr ho hlt in
/-- What is admitted at once is admitted in parts, the first one at first. -/
theorem Snapshot.Records.admits_left (ha : s.Admits C config (x ++ y)) : s.Admits C config x := by
  refine ⟨fun z hz => ha.routable z ?_, fun k hk => ?_, fun k hk => ?_⟩
  · rw [LedgerExtension.events_append]
    exact List.mem_append_left _ hz
  · obtain ⟨R, hR, hstorable⟩ := ha.lists k hk
    rw [hr.made_eq ho, ListKind.groups_joined hk hlt] at hR
    obtain ⟨R₁, R₂, hR₁, _, rfl⟩ := NewRows.rowsAfter_append_eq_ok.1 hR
    rw [hr.made_eq ho.split.of_append]
    exact ⟨R₁, hR₁, (ListKind.storable_append.1 hstorable).1⟩
  · have hplain := k.storable_made_iff.1 (ha.plain k hk)
    rw [PlainKind.changes_joined hk] at hplain
    exact k.storable_made_iff.2 (List.forall_mem_append.1 hplain).1

variable (hc : s.Completed n C config x s₁)

include hr hc

/-- The groups of the longer history are the old ones and those that the invocation made. -/
theorem Snapshot.Records.groups_completed (hk : k.domain.name ∈ config.domains.enabled) :
    History.groups (h ++ [(config, x)]) s₁.number k
      = h.groups s.number k ++ k.groups (s.numbering config x) x.events := by
  have hnumber : s₁.number = s.numbering config x :=
    Snapshot.number_congr (s := (s.idle.prepared config x).working) hc.entities
  have hsame := History.groups_congr (hr.number_eq hc.get?_of_some) k
  rw [History.groups_concat, if_pos hk, ← hsame, hnumber]

variable (hr₁ : s₁.Records (h ++ [(config, x)]) C₁ H₁)
  (hnumber : s₁.numbering config y = s.numbering config (x ++ y))

include hs ho hroom hr₁ hnumber

/-- The later rows are the same but for their ids, whether they are made behind the first ones or
behind what the store has of these. -/
theorem Snapshot.Records.exists_rename_joined (hk : k.domain.name ∈ config.domains.enabled)
    {R₁ R₂ R₂' : NewRows k.domain} (hR₁ : R₁.Tells (k.groups (s.numbering config x) x.events))
    (hR₂ : R₂.Tells (k.groups (s.numbering config (x ++ y)) y.events))
    (hR : k.made (C k) s.nextIds (s.numbering config (x ++ y)) (x ++ y).events = .ok (R₁ ++ R₂))
    (hR' : k.made (C₁ k) s₁.nextIds (s₁.numbering config y) y.events = .ok R₂') :
    (∃ f, R₂'.aggregates = R₂.aggregates.map (·.rename f))
      ∧ ∃ f, R₂.aggregates = R₂'.aggregates.map (·.rename f) := by
  have hR₂' := NewRows.tells_rowsAfter hR'
  rw [hnumber] at hR₂'
  have hlast := k.tells_reread hR₂
  have hlast' := k.tells_reread hR₂'
  have htells := ((hr.tells k).append (k.tells_reread hR₁)).append hlast
  have htells' := (hr₁.tells k).append hlast'
  rw [hr.groups_completed hc hk, List.map_append] at htells'
  have hconsistent : ((C k ++ k.rereadRows R₁) ++ k.rereadRows R₂).Consistent := by
    have hboth := hr.consistent_made hs ho (by rw [LedgerExtension.eventCount_append]; omega) hR
    rw [NewRows.append_assoc, ← k.rereadRows_append]
    exact k.consistent_reread hboth
  have hconsistent' := k.consistent_reread (hr₁.consistent_made hc.sound ho.split hroom hR')
  obtain ⟨f, hf⟩ := hconsistent.exists_rename_behind hconsistent' htells htells' hlast hlast'
  obtain ⟨g, hg⟩ := hconsistent'.exists_rename_behind hconsistent htells' htells hlast' hlast
  exact ⟨⟨f, congrArg NewRows.aggregates hf⟩, g, congrArg NewRows.aggregates hg⟩

include hlt

/-- A domain with lists makes rows of all events at once that can be stored if and only if it makes
such rows of the later events where the first ones have their rows. -/
theorem Snapshot.Records.lists_joined (hk : k.domain.name ∈ config.domains.enabled) :
    (∃ R, k.made (C k) s.nextIds (s.numbering config (x ++ y)) (x ++ y).events = .ok R ∧ k.Storable R)
      ↔ ∃ R, k.made (C₁ k) s₁.nextIds (s₁.numbering config y) y.events = .ok R ∧ k.Storable R := by
  obtain ⟨R₁, hR₁, hstorable₁⟩ := hc.admitted.lists k hk
  have hmade : (∃ R, k.made (C k) s.nextIds (s.numbering config (x ++ y)) (x ++ y).events = .ok R)
      ↔ ∃ R, k.made (C₁ k) s₁.nextIds (s₁.numbering config y) y.events = .ok R := by
    have hfirst := (hr.made_isOk_iff ho.split.of_append k _).1 ⟨R₁, hR₁⟩
    have hkeys : (C₁ k).aggregates.map Aggregate.groupKey = (C k).aggregates.map Aggregate.groupKey
        ++ (k.groups (s.numbering config x) x.events).map (·.1) := by
      rw [hr₁.groupKeys_eq, hr.groupKeys_eq, hr.groups_completed hc hk, List.map_append]
    rw [hr.made_isOk_iff ho, hr₁.made_isOk_iff ho.split, hnumber, ListKind.groups_joined hk hlt,
      NewRows.admits_append_iff (ListKind.lt_of_mem_groups hlt) hkeys, and_iff_right hfirst]
  have hstorable : ∀ {R R'}, k.made (C k) s.nextIds (s.numbering config (x ++ y)) (x ++ y).events
      = .ok R → k.made (C₁ k) s₁.nextIds (s₁.numbering config y) y.events = .ok R' →
      (k.Storable R ↔ k.Storable R') := by
    intro R R' hR hR'
    have hparts := hR
    rw [hr.made_eq ho, ListKind.groups_joined hk hlt] at hparts
    obtain ⟨R₁', R₂, hR₁', hR₂, rfl⟩ := NewRows.rowsAfter_append_eq_ok.1 hparts
    rw [hr.made_eq ho.split.of_append, hR₁'] at hR₁
    cases hR₁
    have htells := NewRows.tells_rowsAfter hR₂
    have htells' := NewRows.tells_rowsAfter hR'
    rw [hnumber] at htells'
    obtain ⟨⟨f, hf⟩, g, hg⟩ := hr.exists_rename_joined hs ho hroom hc hr₁ hnumber hk
      (NewRows.tells_rowsAfter hR₁') htells hR hR'
    rw [ListKind.storable_append, and_iff_right hstorable₁]
    exact ⟨fun hst => hst.of_tells htells htells' hf, fun hst => hst.of_tells htells' htells hg⟩
  constructor
  · rintro ⟨R, hR, hst⟩
    obtain ⟨R', hR'⟩ := hmade.1 ⟨R, hR⟩
    exact ⟨R', hR', (hstorable hR hR').1 hst⟩
  · rintro ⟨R', hR', hst⟩
    obtain ⟨R, hR⟩ := hmade.2 ⟨R', hR'⟩
    exact ⟨R, hR, (hstorable hR hR').2 hst⟩

/-- Where the first extension is recorded, the second one is admitted if and only if both were at
once. -/
theorem Snapshot.Records.admits_joined_iff : s.Admits C config (x ++ y) ↔ s₁.Admits C₁ config y := by
  have hroute : (∀ z ∈ (x ++ y).events, z.2.IsRoutable config.domains.enabled)
      ↔ ∀ z ∈ y.events, z.2.IsRoutable config.domains.enabled := by
    rw [LedgerExtension.events_append, List.forall_mem_append, and_iff_right hc.admitted.routable]
  have hlists := fun k hk => hr.lists_joined hs ho hlt hroom hc hr₁ hnumber (k := k) hk
  have hplain : ∀ k : PlainKind, k.domain.name ∈ config.domains.enabled →
      ((∀ z ∈ k.made s.nextIds (s.numbering config (x ++ y)) (x ++ y).events,
          k.domain.table.Storable (k.domain.encode z))
        ↔ ∀ z ∈ k.made s₁.nextIds (s₁.numbering config y) y.events,
          k.domain.table.Storable (k.domain.encode z)) := by
    intro k hk
    have hfirst := k.storable_made_iff.1 (hc.admitted.plain k hk)
    rw [k.storable_made_iff, k.storable_made_iff, PlainKind.changes_joined hk,
      List.forall_mem_append, and_iff_right hfirst, hnumber]
  constructor
  · exact fun ha => ⟨hroute.1 ha.routable, fun k hk => (hlists k hk).1 (ha.lists k hk),
      fun k hk => (hplain k hk).1 (ha.plain k hk)⟩
  · exact fun ha => ⟨hroute.2 ha.routable, fun k hk => (hlists k hk).2 (ha.lists k hk),
      fun k hk => (hplain k hk).2 (ha.plain k hk)⟩

end Joined

/-! ## At once or in parts -/

/-- Calm invocations record extensions at once if and only if they record them one after the other,
and lead to states that are the same but for new ids. -/
theorem Snapshot.Records.calm_append {h : History} {n : Nat} {s : Snapshot} {C : Chronicles}
    {H : Histories} {config : Configuration} {x y : LedgerExtension} (hs : s.Sound n)
    (hr : s.Records h C H) (ho : History.InOrder (h ++ [(config, x ++ y)]))
    (hlt : ∀ a ∈ x.events, ∀ b ∈ y.events, a.1 < b.1)
    (hroom : n + (1 + 2 * x.eventCount) + (1 + 2 * y.eventCount) < 2 ^ 63) {s₁ : Snapshot}
    (hs₁ : ((recordExtension config x).calm s.idle).2.committed = s₁) :
    ((∃ report, ((recordExtension config (x ++ y)).calm s.idle).1 = .ok report)
        ↔ (∃ report, ((recordExtension config x).calm s.idle).1 = .ok report)
          ∧ ∃ report, ((recordExtension config y).calm s₁.idle).1 = .ok report)
      ∧ ∀ report, ((recordExtension config (x ++ y)).calm s.idle).1 = .ok report →
        ∃ ρ, Snapshot.Renames ρ s ((recordExtension config (x ++ y)).calm s.idle).2.committed
          ((recordExtension config y).calm s₁.idle).2.committed := by
  have hC := hr.chronicled
  have hroom₁ : n + (1 + 2 * x.eventCount) < 2 ^ 63 := by omega
  have hboth : n + (1 + 2 * (x ++ y).eventCount) < 2 ^ 63 := by
    rw [LedgerExtension.eventCount_append]
    omega
  have hadmits : _ ↔ s.Admits C config (x ++ y) := calm_isOk_iff_admits hs hC hboth
  rw [hadmits, calm_isOk_iff_admits hs hC hroom₁]
  by_cases hx : s.Admits C config x
  swap
  · have hnone : ¬s.Admits C config (x ++ y) := fun ha => hx (hr.admits_left ho hlt ha)
    exact ⟨⟨fun ha => absurd ha hnone, fun ha => absurd ha.1 hx⟩,
      fun report hok => absurd (hadmits.1 ⟨report, hok⟩) hnone⟩
  obtain ⟨hc₁, hseq, hrows₁⟩ := completed_of_admits hs hC hroom₁ hx
  rw [hs₁] at hc₁ hseq hrows₁
  obtain ⟨C₁, H₁, hr₁, _, _⟩ := hr.completed hs ho.split.of_append hroom₁ hc₁
  have hentities := hc₁.entities_joined hseq (y := y)
  have hnumber : s₁.numbering config y = s.numbering config (x ++ y) :=
    Snapshot.number_congr (s := (s.idle.prepared config (x ++ y)).working) hentities
  have hiff := hr.admits_joined_iff hs ho hlt hroom hc₁ hr₁ hnumber
  rw [calm_isOk_iff_admits hc₁.sound hr₁.chronicled hroom, hiff, and_iff_right hx]
  refine ⟨Iff.rfl, fun report hok => ?_⟩
  have hxy := hadmits.1 ⟨report, hok⟩
  obtain ⟨hc, _, hrows⟩ := completed_of_admits hs hC hboth hxy
  obtain ⟨hc₂, _, hrows₂⟩ := completed_of_admits hc₁.sound hr₁.chronicled hroom (hiff.1 hxy)
  obtain ⟨_, _, hrecords, _, _⟩ := hr.completed hs ho hboth hc
  obtain ⟨_, _, hrecords₂, _, _⟩ := hr₁.completed hc₁.sound ho.split hroom hc₂
  refine (hrecords.split hlt).exists_renaming hc.sound.keyed hc₂.sound.keyed hrecords₂
    (hc₂.entities.trans (hentities.trans hc.entities.symm)) (fun name => ?_) fun name => ?_
  · exact hs.keyed.ids_prefix hc.sound.keyed (hrows name)
  · exact hs.keyed.ids_prefix hc₂.sound.keyed ((hrows₁ name).trans (hrows₂ name))

/-- In every state that attempts lead to while no sequence runs out, extensions whose versions go on
from what was committed, those of the second one behind those of the first, are recorded at once if
and only if they are recorded one after the other. The states that both ways lead to have the same
directory and the same rows under other ids for the new ones, which grow alike, also where lists and
owner roles refer to them. -/
theorem History.Reaches.run_append {h : History} {n : Nat} {s : Snapshot} (hs : h.Reaches n s)
    {config : Configuration} {x y : LedgerExtension}
    (ho : History.InOrder (h ++ [(config, x ++ y)]))
    (hlt : ∀ a ∈ x.events, ∀ b ∈ y.events, a.1 < b.1)
    (hroom : n + (1 + 2 * x.eventCount) + (1 + 2 * y.eventCount) < 2 ^ 63) {t : Session}
    (ht : t.IsCalm) (hstore : t.store.committed = s) :
    ((∃ report, (t.run (recordExtension config (x ++ y))).1 = .ok report)
        ↔ (∃ report, (t.run (recordExtension config x)).1 = .ok report)
          ∧ ∃ report, ((t.run (recordExtension config x)).2.run (recordExtension config y)).1
            = .ok report)
      ∧ ∀ report, (t.run (recordExtension config (x ++ y))).1 = .ok report →
        ∃ ρ, Snapshot.Renames ρ s (t.run (recordExtension config (x ++ y))).2.store.committed
          ((t.run (recordExtension config x)).2.run (recordExtension config y)).2.store.committed := by
  obtain ⟨hsound, C, H, hr⟩ := hs.records ho.of_append (by omega)
  have ht₁ := Session.isCalm_run (recordExtension config x) ht
  have hwhole : (t.run (recordExtension config (x ++ y))).2.store.committed
      = ((recordExtension config (x ++ y)).calm s.idle).2.committed := by
    rw [Session.committed_recordExtension ht, hstore]
  have hfirst : (t.run (recordExtension config x)).2.store.committed
      = ((recordExtension config x).calm s.idle).2.committed := by
    rw [Session.committed_recordExtension ht, hstore]
  rw [Session.run_recordExtension ht, Session.run_recordExtension ht,
    Session.run_recordExtension ht₁, Session.committed_recordExtension ht₁, hwhole, hfirst, hstore]
  exact hr.calm_append hsound ho hlt hroom rfl

/-- An extension that names an account. -/
def namingSample : LedgerExtension :=
  ⟨[⟨1, [⟨renamedAccount, .metadataEntry "name" (some [1]) false⟩]⟩]⟩

/-- A later extension that names the account anew. -/
def renamingSample : LedgerExtension :=
  ⟨[⟨2, [⟨renamedAccount, .metadataEntry "name" (some [2]) false⟩]⟩]⟩

theorem History.Reaches.run_append_sample : ∃ t : Session, History.Reaches [] 0 {} ∧ t.IsCalm
    ∧ t.store.committed = {}
    ∧ (∃ report, (t.run (recordExtension {} (namingSample ++ renamingSample))).1 = .ok report)
    ∧ (∃ report, (t.run (recordExtension {} namingSample)).1 = .ok report)
    ∧ (∃ report, ((t.run (recordExtension {} namingSample)).2.run
      (recordExtension {} renamingSample)).1 = .ok report)
    ∧ ∃ ρ, Snapshot.Renames ρ {}
      (t.run (recordExtension {} (namingSample ++ renamingSample))).2.store.committed
      ((t.run (recordExtension {} namingSample)).2.run
        (recordExtension {} renamingSample)).2.store.committed := by
  have hcalm : (Session.mk {} none false [] [] []).IsCalm := ⟨rfl, rfl, rfl⟩
  have ho : History.InOrder ([] ++ [(({} : Configuration), namingSample ++ renamingSample)]) := by
    unfold History.InOrder
    decide
  have hok : ∃ report, ((Session.mk {} none false [] [] []).run
      (recordExtension {} (namingSample ++ renamingSample))).1 = .ok report := by
    rw [Session.run_recordExtension hcalm]
    exact (calm_isOk_iff_admits Snapshot.sound_empty Snapshot.records_empty.chronicled
      (by decide)).2 admits_renamedSample
  obtain ⟨hiff, hrename⟩ := History.Reaches.start.run_append ho (by decide) (by decide) hcalm rfl
  obtain ⟨report, he⟩ := hok
  obtain ⟨hfirst, hsecond⟩ := hiff.1 ⟨report, he⟩
  exact ⟨_, .start, hcalm, rfl, ⟨report, he⟩, hfirst, hsecond, hrename report he⟩

end LedgerHistory
