import LedgerHistory.Proofs.Recording.Arrangement
import LedgerHistory.Proofs.Recording.OwnerRoles
import LedgerHistory.Proofs.Recording.Stored

/-!
# Point-in-time reads

In every state that attempts lead to, whatever the versions of what was committed, the most recent row
of an entity in a domain without lists is that of the event which was processed last of those with the
greatest version within the bound (`History.Reaches.point_in_time`). Rows with the same version are told
apart by their ids alone, so this rests on ids that increase in the order of the events
(`History.Reaches.told`).
-/

namespace LedgerHistory

/-- The events of a domain that it recorded, in the order in which they were processed. -/
def History.domainEvents (h : History) (d : DomainName) : List (Int64 × SubstateEvent) :=
  (h.recorded d).filter (·.2.substate.domain? = some d)

/-- Whether an event is that of an entity which was processed last of those with the greatest version
within a bound: none before it has a greater version, and none after it one as great. -/
structure MostRecent (a : Address) (bound : Option Int64) (older : List (Int64 × SubstateEvent))
    (y : Int64 × SubstateEvent) (newer : List (Int64 × SubstateEvent)) : Prop where
  entity : y.2.entity = a
  within : within bound y.1 = true
  older : ∀ z ∈ older, z.2.entity = a → LedgerHistory.within bound z.1 = true → z.1 ≤ y.1
  newer : ∀ z ∈ newer, z.2.entity = a → LedgerHistory.within bound z.1 = true → z.1 < y.1

/-- There is such an event if there is any of the entity within the bound. -/
theorem exists_mostRecent {a : Address} {bound : Option Int64} {es : List (Int64 × SubstateEvent)}
    (h : ∃ y ∈ es, y.2.entity = a ∧ within bound y.1 = true) :
    ∃ older y newer, es = older ++ y :: newer ∧ MostRecent a bound older y newer := by
  induction es with
  | nil =>
    obtain ⟨_, hy, _⟩ := h
    cases hy
  | cons z es ih =>
    by_cases hrest : ∃ y ∈ es, y.2.entity = a ∧ within bound y.1 = true
    · obtain ⟨older, y, newer, rfl, hy⟩ := ih hrest
      by_cases hz : (z.2.entity = a ∧ within bound z.1 = true) ∧ y.1 < z.1
      · refine ⟨[], z, older ++ y :: newer, rfl, hz.1.1, hz.1.2, nofun, fun w hw he hb => ?_⟩
        rcases List.mem_append.1 hw with hw | hw
        · exact Int64.lt_of_le_of_lt (hy.older w hw he hb) hz.2
        · rcases List.mem_cons.1 hw with rfl | hw
          · exact hz.2
          · exact Int64.lt_trans (hy.newer w hw he hb) hz.2
      · refine ⟨z :: older, y, newer, rfl, hy.entity, hy.within, fun w hw he hb => ?_, hy.newer⟩
        rcases List.mem_cons.1 hw with rfl | hw
        · exact Int64.not_lt.1 fun hlt => hz ⟨⟨he, hb⟩, hlt⟩
        · exact hy.older w hw he hb
    · have hz : z.2.entity = a ∧ within bound z.1 = true := by
        obtain ⟨y, hy, hya⟩ := h
        rcases List.mem_cons.1 hy with rfl | hy
        · exact hya
        · exact absurd ⟨y, hy, hya⟩ hrest
      exact ⟨[], z, es, rfl, hz.1, hz.2, nofun, fun w hw he hb => absurd ⟨w, hw, he, hb⟩ hrest⟩

namespace PlainKind

def entityColumn : PlainKind → String
  | .defaultDepositRule => "account_entity_id"
  | .componentState => "entity_id"

/-- Asks for the most recent row of an entity. -/
def latestQuery (k : PlainKind) (i : EntityId) (bound : Option Int64) : LatestQuery :=
  ⟨k.domain.table, [k.entityColumn], [[.ofEntityId i]], bound⟩

/-- Whether a row is that of an event, as it is read back. -/
structure Shows (k : PlainKind) (s : Snapshot) (x : HistoryRow k.domain.Change)
    (y : Int64 × SubstateEvent) : Prop where
  entity : ∃ e, s.entities.get? y.2.entity = some e ∧ e.id = x.entity
  version : x.stateVersion = y.1
  change : (k.domain.meaningOf y.2.substate).map k.reread = some x.change

/-- What a state answers when it is asked for the most recent row of an entity with an address: the row
of the most recent event, or nothing when there is none. -/
structure Answers (k : PlainKind) (s : Snapshot) (es : List (Int64 × SubstateEvent))
    (rows : List (HistoryRow k.domain.Change)) (a : Address) (i : EntityId) (bound : Option Int64) :
    Prop where
  nothing : s.latest (k.latestQuery i bound) = .ok []
    ↔ ∀ y ∈ es, y.2.entity = a → within bound y.1 = false
  found {older newer : List (Int64 × SubstateEvent)} {y : Int64 × SubstateEvent}
    (hes : es = older ++ y :: newer) (hy : MostRecent a bound older y newer) :
    ∃ x, rows[older.length]? = some x ∧ k.Shows s x y
      ∧ s.latest (k.latestQuery i bound) = .ok [k.domain.encode x]

/-! ## Queries -/

section Query

variable {k : PlainKind}

theorem validate_latestQuery (k : PlainKind) (i : EntityId) (bound : Option Int64) :
    (k.latestQuery i bound).validate = .ok [.int8] := by
  cases k <;> rfl

theorem layout_latestQuery (k : PlainKind) (i : EntityId) (bound : Option Int64) :
    (k.latestQuery i bound).layout = .ok ⟨[2], 1, 0⟩ := by
  cases k <;> rfl

theorem places_encode (k : PlainKind) (xs : List (HistoryRow k.domain.Change)) :
    LatestQuery.Layout.Places ⟨[2], 1, 0⟩ (HistoryRow.versioned k.domain.Change) k.domain.encode xs :=
  fun x _ => by cases k <;> exact ⟨rfl, rfl⟩

theorem hasKey_encode (x : HistoryRow k.domain.Change) (i : EntityId) :
    LatestQuery.Layout.hasKey ⟨[2], 1, 0⟩ [.ofEntityId i] (k.domain.encode x) = true
      ↔ x.entity = i := by
  have hat : Row.at (k.domain.encode x) 2 = .ofEntityId x.entity := by cases k <;> rfl
  have hsame : (ColumnValue.ofEntityId x.entity).same (.ofEntityId i) = true ↔ x.entity = i := by
    rw [ColumnValue.ofEntityId, ColumnValue.ofEntityId, ColumnValue.same]
    · cases x.entity
      cases i
      simp
    · intro _ _ h
      cases h
  simpa [LatestQuery.Layout.hasKey, hat] using hsame

variable {s : Snapshot} {xs : List (HistoryRow k.domain.Change)} (hincreasing : xs.Pairwise (·.id < ·.id))
  (hrows : s.rows k.domain.table.name = xs.map k.domain.encode)

include hincreasing hrows

/-- The answer is the row that is ranked last among those of the entity within the bound. -/
theorem exists_latest_eq : ∃ ranked, (HistoryRow.versioned k.domain.Change).Ranks xs ranked
    ∧ ∀ i bound, s.latest (k.latestQuery i bound)
      = .ok ((ranked.filter fun x => x.entity = i && within bound x.stateVersion).getLast?.toList.map
        k.domain.encode) := by
  have hids : (xs.map (HistoryRow.versioned k.domain.Change).id).Nodup :=
    nodup_of_increasing (List.pairwise_map.2 hincreasing)
  obtain ⟨ranked, hr⟩ := (HistoryRow.versioned k.domain.Change).exists_ranks hids
  refine ⟨ranked, hr, fun i bound => ?_⟩
  rw [Snapshot.latest_eq (k.validate_latestQuery i bound) (k.layout_latestQuery i bound)
    (k.places_encode xs) hr hrows]
  have hmatching : LatestQuery.Layout.matching ⟨[2], 1, 0⟩ (HistoryRow.versioned k.domain.Change)
      k.domain.encode bound [.ofEntityId i] ranked
      = ranked.filter fun x => x.entity = i && within bound x.stateVersion := by
    refine List.filter_congr fun x _ => ?_
    rw [Bool.eq_iff_iff, Bool.and_eq_true, Bool.and_eq_true, hasKey_encode, decide_eq_true_eq]
    rfl
  show Except.ok (([[.ofEntityId i]].filterMap fun key => (LatestQuery.Layout.matching _ _ _ bound key
    ranked).getLast?).map k.domain.encode) = _
  rw [List.filterMap_cons, hmatching]
  rcases (ranked.filter _).getLast? with _ | x <;> rfl

theorem latest_eq_nil {i : EntityId} {bound : Option Int64}
    (hnone : ∀ x ∈ xs, x.entity = i → within bound x.stateVersion = false) :
    s.latest (k.latestQuery i bound) = .ok [] := by
  obtain ⟨ranked, hr, hanswer⟩ := exists_latest_eq hincreasing hrows
  rw [hanswer, List.filter_eq_nil_iff.2 fun x hx hmatch => ?_]
  · rfl
  · obtain ⟨he, hb⟩ : x.entity = i ∧ within bound x.stateVersion = true := by simpa using hmatch
    rw [hnone x (hr.perm.mem_iff.1 hx) he] at hb
    cases hb

end Query

end PlainKind

/-! ## Rows and events -/

/-- The changes of a history are those of the events that the domain recorded. -/
theorem History.changes_eq (h : History) (number : Numbering) (k : PlainKind) :
    h.changes number k = (h.recorded k.domain.name).filterMap (k.change? number) := by
  rw [changes, recorded, List.filterMap_flatMap]
  refine List.flatMap_congr fun p _ => ?_
  split
  · exact k.changes_eq number p.2.events
  · rfl

section Rows

variable {h : History} {n : Nat} {s : Snapshot} {H : Histories} {k : PlainKind}

/-- The rows of a domain are those of its events, one after another. -/
theorem Snapshot.Told.forall₂_shows (ht : s.Told h H) (k : PlainKind) :
    List.Forall₂ (k.Shows s) (H k) (h.domainEvents k.domain.name) := by
  have hplain := ht.plain k
  rw [History.changes_eq, List.map_filterMap] at hplain
  have hrel := forall₂_of_map_eq_filterMap hplain
  have hevents : (h.recorded k.domain.name).filter (fun y => ((k.change? s.number y).map
      fun z => (z.1, k.reread z.2)).isSome) = h.domainEvents k.domain.name := by
    refine List.filter_congr fun y _ => ?_
    rw [Option.isSome_map, PlainKind.change?, Option.isSome_map, Bool.eq_iff_iff,
      k.isSome_meaningOf, decide_eq_true_eq]
  rw [hevents] at hrel
  refine (forall₂_mem hrel).imp fun x y hxy => ?_
  obtain ⟨_, hy, hxy⟩ := hxy
  obtain ⟨hrecorded, hdomain⟩ := List.mem_filter.1 hy
  obtain ⟨p, hp, hy⟩ := List.mem_flatMap.1 hrecorded
  obtain ⟨z, hz, he⟩ := Option.map_eq_some_iff.1 hxy
  obtain ⟨c, hc, rfl⟩ := Option.map_eq_some_iff.1 hz
  obtain ⟨hkey, hchange⟩ := Prod.mk.inj he
  obtain ⟨hentity, hversion⟩ := GroupKey.mk.inj hkey
  refine ⟨?_, hversion.symm, ?_⟩
  · split at hy
    · rename_i hk
      obtain ⟨e, he⟩ := ht.known p hp y hy _ (mem_demandsOf (of_decide_eq_true hdomain) hk).1
      exact ⟨e, he, (Snapshot.number_of_get? he).symm.trans hentity⟩
    · cases hy
  · rw [hc]
    exact congrArg some hchange

/-- A row is of an entity when its event is of the entity's address. -/
theorem PlainKind.Shows.entity_iff {x : HistoryRow k.domain.Change} {y : Int64 × SubstateEvent}
    (hxy : k.Shows s x y) (hs : s.Sound n) {a : Address} {e : Entity}
    (ha : s.entities.get? a = some e) : x.entity = e.id ↔ y.2.entity = a := by
  obtain ⟨e', he', hid⟩ := hxy.entity
  rw [← hid]
  refine ⟨fun h => hs.numbered.distinct he' ha h, fun h => ?_⟩
  rw [h, ha] at he'
  rw [Option.some.inj he']

section Answers

variable (hs : s.Sound n) {es : List (Int64 × SubstateEvent)} {rows : List (HistoryRow k.domain.Change)}
  (hrel : List.Forall₂ (k.Shows s) rows es)
  (hrows : s.rows k.domain.table.name = rows.map k.domain.encode)
  (hincreasing : rows.Pairwise (·.id < ·.id)) {a : Address} {e : Entity}
  (ha : s.entities.get? a = some e)

include hs hrel hrows hincreasing ha

/-- A state that has the rows of events answers with that of the most recent event. -/
theorem PlainKind.latest_eq_of_mostRecent {bound : Option Int64}
    {older newer : List (Int64 × SubstateEvent)} {y : Int64 × SubstateEvent}
    (hes : es = older ++ y :: newer) (hy : MostRecent a bound older y newer) :
    ∃ x, rows[older.length]? = some x ∧ k.Shows s x y
      ∧ s.latest (k.latestQuery e.id bound) = .ok [k.domain.encode x] := by
  subst hes
  obtain ⟨ranked, hr, hanswer⟩ := exists_latest_eq hincreasing hrows
  obtain ⟨xs, x, xs', rfl, hlen, holder, hx, hnewer⟩ := exists_split_of_forall₂ hrel
  refine ⟨x, by simp [← hlen], hx, ?_⟩
  have hmatch : (x.entity = e.id && within bound x.stateVersion) = true := by
    simp [(hx.entity_iff hs ha).2 hy.entity, hx.version, hy.within]
  -- rows before it have smaller ids and no greater versions, and rows after it have smaller versions
  have hlast : ∀ z ∈ xs ++ x :: xs', (z.entity = e.id && within bound z.stateVersion) = true →
      z = x ∨ (HistoryRow.versioned k.domain.Change).Older z x := by
    intro z hz hzmatch
    obtain ⟨hze, hzb⟩ : z.entity = e.id ∧ within bound z.stateVersion = true := by
      simpa using hzmatch
    rcases List.mem_append.1 hz with hz | hz
    · obtain ⟨w, hw, hzw⟩ := exists_of_forall₂ (List.Forall₂.flip holder) hz
      have hle := hy.older w hw ((hzw.entity_iff hs ha).1 hze) (hzw.version ▸ hzb)
      have hid := (List.pairwise_append.1 hincreasing).2.2 z hz x List.mem_cons_self
      rw [← hzw.version, ← hx.version] at hle
      exact .inr (Versioned.older_of_le hle hid)
    · rcases List.mem_cons.1 hz with rfl | hz
      · exact .inl rfl
      · obtain ⟨w, hw, hzw⟩ := exists_of_forall₂ (List.Forall₂.flip hnewer) hz
        have hlt := hy.newer w hw ((hzw.entity_iff hs ha).1 hze) (hzw.version ▸ hzb)
        rw [← hzw.version, ← hx.version] at hlt
        exact .inr (.inl hlt)
  rw [hanswer, hr.getLast?_filter (by simp) hmatch hlast]
  rfl

theorem PlainKind.answers (bound : Option Int64) : k.Answers s es rows a e.id bound := by
  refine ⟨⟨fun hnil y hy hya => ?_, fun hnone => ?_⟩,
    PlainKind.latest_eq_of_mostRecent hs hrel hrows hincreasing ha⟩
  · by_contra hwithin
    obtain ⟨older, y', newer, hes, hy'⟩ := exists_mostRecent ⟨y, hy, hya, by simpa using hwithin⟩
    obtain ⟨x, _, _, hx⟩ :=
      PlainKind.latest_eq_of_mostRecent hs hrel hrows hincreasing ha hes hy'
    rw [hx] at hnil
    cases hnil
  · refine latest_eq_nil hincreasing hrows fun x hx hxe => ?_
    obtain ⟨y, hy, hxy⟩ := exists_of_forall₂ (List.Forall₂.flip hrel) hx
    rw [hxy.version]
    exact hnone y hy ((hxy.entity_iff hs ha).1 hxe)

end Answers

end Rows

/-- In every state that attempts lead to while no sequence runs out, a domain without lists has a row for
each event that it recorded, and the most recent row of an entity within a bound is that of the event
which was processed last of those with the greatest version. -/
theorem History.Reaches.point_in_time {h : History} {n : Nat} {s : Snapshot} (hs : h.Reaches n s)
    (hroom : n < 2 ^ 63) (k : PlainKind) :
    ∃ rows : List (HistoryRow k.domain.Change),
      s.rows k.domain.table.name = rows.map k.domain.encode
      ∧ List.Forall₂ (k.Shows s) rows (h.domainEvents k.domain.name)
      ∧ (∀ {a e}, s.entities.get? a = some e → ∀ bound,
        k.Answers s (h.domainEvents k.domain.name) rows a e.id bound)
      ∧ ∀ i, (∀ a e, s.entities.get? a = some e → e.id ≠ i) → ∀ bound,
        s.latest (k.latestQuery i bound) = .ok [] := by
  obtain ⟨hsound, C, H, hst, ht⟩ := hs.told hroom
  have hrows := hst.plain k
  have hrel := ht.forall₂_shows k
  have hincreasing : (H k).Pairwise (·.id < ·.id) := by
    have hids := hst.increasing k.domain.table.name
    rw [hsound.keyed.ids_eq (·.id) k.at_encode hrows] at hids
    exact List.pairwise_map.1 hids
  refine ⟨H k, hrows, hrel, fun ha bound => k.answers hsound hrel hrows hincreasing ha bound,
    fun i hi bound => ?_⟩
  refine PlainKind.latest_eq_nil hincreasing hrows fun x hx hxi => ?_
  obtain ⟨y, _, hxy⟩ := exists_of_forall₂ (List.Forall₂.flip hrel) hx
  obtain ⟨e, he, hid⟩ := hxy.entity
  exact absurd (hid.trans hxi) (hi _ e he)

/-- An account that has its deposit rules changed. -/
def ruledAccount : Address := ⟨"account_r", by decide⟩

/-- An extension that changes the deposit rule of an account twice in version 2, and then in version 1. -/
def ruleSample : LedgerExtension :=
  ⟨[⟨2, [⟨ruledAccount, .defaultDepositRule .accept⟩, ⟨ruledAccount, .defaultDepositRule .reject⟩]⟩,
    ⟨1, [⟨ruledAccount, .defaultDepositRule .allowExisting⟩]⟩]⟩

theorem admits_ruleSample : Snapshot.Admits {} (fun _ => {}) {} ruleSample where
  routable y hy := by
    have hrule : y.2.substate.domain? = some .defaultDepositRule ∧ y.2.substate.mentions = [] := by
      revert y
      decide
    exact ⟨_, hrule.1, fun _ a ha => by rw [hrule.2] at ha; cases ha⟩
  lists k _ := by
    cases k <;> exact ⟨{}, rfl, nofun, nofun, fun _ _ => nofun⟩
  plain k _ y hy := by
    cases k with
    | componentState => cases hy
    | defaultDepositRule =>
      have hrows : PlainKind.defaultDepositRule.made (Snapshot.nextIds {})
          (Snapshot.numbering {} {} ruleSample) ruleSample.events
          = [⟨1, 2, ⟨1⟩, .accept⟩, ⟨2, 2, ⟨1⟩, .reject⟩, ⟨3, 1, ⟨1⟩, .allowExisting⟩] := by
        with_unfolding_all rfl
      rw [hrows] at hy
      simp only [List.mem_cons, List.not_mem_nil, or_false] at hy
      rcases hy with rfl | rfl | rfl <;> exact ⟨⟨_, rfl⟩, _, rfl⟩

/-- Of the three rules, the one that was set last in version 2 is found. -/
theorem History.Reaches.point_in_time_sample : ∃ s e x, History.Reaches [({}, ruleSample)] 7 s
    ∧ s.entities.get? ruledAccount = some e ∧ x.stateVersion = 2 ∧ x.change = .reject
    ∧ s.latest (PlainKind.defaultDepositRule.latestQuery e.id none)
      = .ok [PlainKind.defaultDepositRule.domain.encode x] := by
  obtain ⟨s, hs, -⟩ := History.Reaches.start.exists_recorded Snapshot.sound_empty
    Snapshot.records_empty.chronicled (by decide) rfl admits_ruleSample
  obtain ⟨rows, _, hrel, hanswers, _⟩ := hs.point_in_time (by decide) .defaultDepositRule
  have hevents : History.domainEvents [({}, ruleSample)] .defaultDepositRule
      = [(2, ⟨ruledAccount, .defaultDepositRule .accept⟩)]
        ++ (2, ⟨ruledAccount, .defaultDepositRule .reject⟩)
        :: [(1, ⟨ruledAccount, .defaultDepositRule .allowExisting⟩)] := rfl
  have hfirst : (2, ⟨ruledAccount, .defaultDepositRule .accept⟩)
      ∈ History.domainEvents [({}, ruleSample)] .defaultDepositRule := by
    rw [hevents]
    exact List.mem_cons_self
  obtain ⟨_, _, hshown⟩ := exists_of_forall₂ hrel hfirst
  obtain ⟨e, he, _⟩ := hshown.entity
  have hrecent : MostRecent ruledAccount none [(2, ⟨ruledAccount, .defaultDepositRule .accept⟩)]
      (2, ⟨ruledAccount, .defaultDepositRule .reject⟩)
      [(1, ⟨ruledAccount, .defaultDepositRule .allowExisting⟩)] :=
    ⟨rfl, rfl, by decide, by decide⟩
  obtain ⟨x, _, hx, hlatest⟩ := (hanswers he none).found hevents hrecent
  exact ⟨s, e, x, hs, he, hx.version, (Option.some.inj hx.change).symm, hlatest⟩

end LedgerHistory
