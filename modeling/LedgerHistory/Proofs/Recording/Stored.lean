import LedgerHistory.Proofs.Recording.Reaches

/-!
# What every state holds

Whatever the versions of what was committed, a state that attempts lead to is sound and holds a
chronicle for each domain, with increasing ids in each table (`History.Reaches.stored`): an invocation
that ends well puts its rows behind those that are there (`Snapshot.Stored.gained`). So look-ups find
the most recent rows in it (`Snapshot.Stored.recalls`). The rows of the domains without lists are those
of the changes that were committed, in order (`History.Reaches.told`).
-/

namespace LedgerHistory

/-- Whether a state holds rows with increasing ids in each table, and what these are. -/
structure Snapshot.Stored (s : Snapshot) (C : Chronicles) (H : Histories) : Prop where
  increasing (name : String) : (s.table name).ids.Pairwise (· < ·)
  holds (k : ListKind) : s.Holds k (C k)
  bare (k : ListKind) : ∀ a ∈ (C k).aggregates,
    k.domain.aggregateSchema.singletonColumn = none → a.singleton = none
  plain (k : PlainKind) : s.rows k.domain.table.name = (H k).map k.domain.encode
  others {name : String} (hn : ∀ d : DomainName, ∀ t ∈ d.tables, t.name ≠ name) : s.rows name = []

/-- The rows that the domains with lists gain. -/
def Snapshot.gains (s : Snapshot) (B : Chronicles) (config : Configuration) (x : LedgerExtension) :
    Chronicles := fun k =>
  if k.domain.name ∈ config.domains.enabled then
    k.rereadRows ((k.made (B k) s.nextIds (s.numbering config x) x.events).toOption.getD {})
  else {}

/-- The rows that the domains without lists gain. -/
def Snapshot.plainGains (s : Snapshot) (config : Configuration) (x : LedgerExtension) : Histories :=
  fun k =>
  if k.domain.name ∈ config.domains.enabled then
    (k.made s.nextIds (s.numbering config x) x.events).map (·.map k.reread)
  else []

section Bare

variable {k : ListKind} {C R : NewRows k.domain}

theorem ListKind.singletonTable_eq_none (h : k.domain.aggregateSchema.singletonColumn = none) :
    k.domain.singletonTable = none := by
  cases k with
  | roleAssignment => cases h
  | metadata | methodRoyalty | resourcePreference | authorizedDepositor => rfl

/-- Where aggregates have no singletons, those that groups add have none. -/
theorem NewRows.bare_rowsAfter (hc : k.domain.aggregateSchema.singletonColumn = none)
    (hC : ∀ a ∈ C.aggregates, a.singleton = none) {ids : FirstIds} {gs : List k.domain.Group}
    (hR : C.rowsAfter ids gs = .ok R) : ∀ a ∈ R.aggregates, a.singleton = none := by
  have hstep : ∀ {C : NewRows k.domain} (ids : FirstIds) (g : k.domain.Group),
      (∀ a ∈ C.aggregates, a.singleton = none) →
      ∀ a ∈ (C.rowsOf ids g).aggregates, a.singleton = none := by
    intro C ids g hC a ha
    have hnil : numbered ids.singleton g.1 g.2.singletons = [] :=
      ListKind.singletons_eq_nil (ListKind.singletonTable_eq_none hc) _
    rw [List.mem_singleton.1 ha, hnil]
    rcases hl : C.latest? g.1.entity with _ | b
    · rfl
    · exact hC b (key_of_lastWith hl).1
  induction gs generalizing C ids R with
  | nil =>
    cases hR
    exact nofun
  | cons g gs ih =>
    obtain ⟨_, R', hR', rfl⟩ := NewRows.rowsAfter_cons_eq_ok.1 hR
    have hg := hstep ids g hC
    intro a ha
    rcases List.mem_append.1 ha with ha | ha
    · exact hg a ha
    · refine ih (fun b hb => ?_) hR' a ha
      exact (List.mem_append.1 hb).elim (hC b) (hg b)

end Bare

section Step

variable {n : Nat} {s s' : Snapshot} {C B : Chronicles} {H : Histories} {config : Configuration}
  {x : LedgerExtension} {bss : List (List Batch)}

theorem Snapshot.stored_empty : ({} : Snapshot).Stored (fun _ => {}) fun _ => [] where
  increasing _ := .nil
  holds _ := ⟨rfl, rfl, fun _ => rfl⟩
  bare _ := nofun
  plain _ := rfl
  others _ := rfl

theorem Snapshot.Stored.of_tables_eq (h : s.Stored C H) (ht : s'.tables = s.tables) :
    s'.Stored C H := by
  have htable : ∀ name, s'.table name = s.table name := fun name => by
    simp only [Snapshot.table, ht]
  have hrows : ∀ name, s'.rows name = s.rows name := fun name => by
    simp only [Snapshot.rows, htable]
  refine ⟨fun name => ?_, fun k => (h.holds k).of_tables_eq ht, h.bare, fun k => ?_,
    fun {name} hn => ?_⟩
  · rw [htable]
    exact h.increasing name
  · rw [hrows]
    exact h.plain k
  · rw [hrows]
    exact h.others hn

/-- The rows of a state can be ranked. -/
theorem Snapshot.Stored.recalls (hs : s.Keyed) (h : s.Stored C H) :
    ∃ B : Chronicles, (∀ k, (C k).Ranks (B k)) ∧ s.Recalls B := by
  have hranks : ∀ k, ∃ B : NewRows k.domain, (C k).Ranks B := by
    intro k
    have hentries := hs.ids_eq (·.id) k.at_encodeEntry (h.holds k).entries
    have haggregates := hs.ids_eq (·.id) (fun _ => rfl) (h.holds k).aggregates
    obtain ⟨entries, he⟩ := (HistoryRow.versioned k.domain.Change).exists_ranks
      (hentries ▸ nodup_of_increasing (h.increasing _))
    obtain ⟨aggregates, ha⟩ := Aggregate.versioned.exists_ranks
      (haggregates ▸ nodup_of_increasing (h.increasing _))
    exact ⟨⟨entries, aggregates, (C k).singletons⟩, he, ha, rfl⟩
  choose B hB using hranks
  exact ⟨B, hB, fun k => ⟨C k, h.holds k, hB k, h.bare k⟩⟩

theorem rowCount_le_eventCount (hout : outcomes s B config x = .ok bss) (name : String) :
    rowCount bss.flatten name ≤ x.eventCount := by
  by_cases hname : ∃ b ∈ bss.flatten, b.table.name = name
  · obtain ⟨b, hb, rfl⟩ := hname
    rw [rowCount_of_mem (nodup_outcomes hout) hb]
    exact (mem_outcomes hout hb).2
  · push Not at hname
    rw [rowCount_eq_zero hname]
    exact Nat.zero_le _

/-- The new ids of a table stand behind the old ones. -/
theorem Snapshot.Gained.ids_eq (hs : s.Sound n) (hg : s.Gained n config x bss s')
    (hout : outcomes s B config x = .ok bss) (name : String) : (s'.table name).ids
      = (s.table name).ids ++ idsFrom (s.nextIds name) (rowCount bss.flatten name) := by
  have hkeyed := hg.sound.keyed name
  by_cases hname : ∃ b ∈ bss.flatten, b.table.name = name
  · obtain ⟨b, hb, rfl⟩ := hname
    rw [rowCount_of_mem (nodup_outcomes hout) hb]
    rw [hg.rows hb, List.map_append, hs.keyed, (mem_outcomes hout hb).1, ← List.map_append] at hkeyed
    exact ((List.map_inj_right fun _ _ => ColumnValue.int8.inj).1 hkeyed).symm
  · push Not at hname
    rw [hg.kept fun t ht => ?_, hs.keyed] at hkeyed
    · rw [rowCount_eq_zero hname, idsFrom, List.append_nil]
      exact ((List.map_inj_right fun _ _ => ColumnValue.int8.inj).1 hkeyed).symm
    · rw [← tables_outcomes hout] at ht
      obtain ⟨b, hb, rfl⟩ := List.mem_map.1 ht
      exact hname b hb

/-- New ids are greater than all that are there. -/
theorem Snapshot.Sound.increasing_ids (hs : s.Sound n) (hroom : n + (1 + 2 * x.eventCount) < 2 ^ 63)
    {name : String} (h : (s.table name).ids.Pairwise (· < ·)) {m : Nat} (hm : m ≤ x.eventCount) :
    ((s.table name).ids ++ idsFrom (s.nextIds name) m).Pairwise (· < ·) := by
  have hnext := toInt_nextIds hs hroom name
  have hbound := hs.bound (Table.sequenceNameOf name)
  have hfits : (s.nextIds name).toInt + m < 2 ^ 63 := by omega
  refine List.pairwise_append.2 ⟨h, increasing_idsFrom (Int.le_of_lt hfits), fun i hi j hj => ?_⟩
  have hold := hs.ids name i hi
  have hnew := (mem_idsFrom hfits j hj).1
  rw [Int64.le_iff_toInt_le] at hnew
  rw [Int64.lt_iff_toInt_lt]
  omega

/-- An invocation that ends well puts its rows behind those that are there. -/
theorem Snapshot.Stored.gained (hs : s.Sound n) (h : s.Stored C H)
    (hroom : n + (1 + 2 * x.eventCount) < 2 ^ 63) (hB : ∀ k, (C k).Ranks (B k))
    (hout : outcomes s B config x = .ok bss) (hg : s.Gained n config x bss s') :
    s'.Stored (fun k => C k ++ s.gains B config x k) fun k => H k ++ s.plainGains config x k := by
  have hmade : ∀ k : ListKind, k.domain.name ∈ config.domains.enabled →
      ∃ R, k.made (B k) s.nextIds (s.numbering config x) x.events = .ok R
        ∧ s.gains B config x k = k.rereadRows R := by
    intro k hk
    obtain ⟨bs, _, hd⟩ := exists_outcome hout hk
    rw [k.outcome_name] at hd
    obtain ⟨R, hR, _⟩ := map_eq_ok.1 hd
    refine ⟨R, hR, ?_⟩
    rw [gains, if_pos hk, hR]
    rfl
  have hnone : ∀ k : ListKind, k.domain.name ∉ config.domains.enabled →
      C k ++ s.gains B config x k = C k := by
    intro k hk
    rw [gains, if_neg hk, NewRows.append_empty]
  refine ⟨fun name => ?_, fun k => ?_, fun k => ?_, fun k => ?_, fun {name} hn => ?_⟩
  · rw [hg.ids_eq hs hout]
    exact hs.increasing_ids hroom (h.increasing name) (rowCount_le_eventCount hout name)
  · by_cases hk : k.domain.name ∈ config.domains.enabled
    · obtain ⟨R, hR, he⟩ := hmade k hk
      rw [he]
      exact hg.holds hout hk (h.holds k) hR
    · rw [hnone k hk]
      exact (h.holds k).of_kept hg.kept hk
  · intro a ha hc
    by_cases hk : k.domain.name ∈ config.domains.enabled
    · obtain ⟨R, hR, he⟩ := hmade k hk
      rw [he] at ha
      rcases List.mem_append.1 ha with ha | ha
      · exact h.bare k a ha hc
      · refine NewRows.bare_rowsAfter hc (fun b hb => h.bare k b ?_ hc) hR a ha
        exact (hB k).aggregates.perm.mem_iff.1 (List.mem_of_mem_filter hb)
    · rw [hnone k hk] at ha
      exact h.bare k a ha hc
  · by_cases hk : k.domain.name ∈ config.domains.enabled
    · rw [hg.plain hout hk, h.plain k, plainGains, if_pos hk, List.map_append]
    · rw [hg.kept (DomainSwitches.name_ne k.mem_tables hk), h.plain k, plainGains, if_neg hk,
        List.append_nil]
  · exact (Snapshot.rows_of_kept hg.kept hn).trans (h.others hn)

end Step

/-! ## Domains without lists -/

/-- Whether the addresses that a history needs are in the directory of a state, and rows of the domains
without lists are those of its changes, in order. -/
structure Snapshot.Told (h : History) (s : Snapshot) (H : Histories) : Prop where
  known : ∀ p ∈ h, ∀ y ∈ p.2.events, ∀ q ∈ demandsOf p.1.domains.enabled y,
    ∃ e, s.entities.get? q.1 = some e
  plain (k : PlainKind) : (H k).map (fun x => (x.groupKey, x.change))
    = (h.changes s.number k).map fun y => (y.1, k.reread y.2)

section Told

variable {h : History} {n : Nat} {s s' : Snapshot} {H : Histories} {config : Configuration}
  {x : LedgerExtension} {bss : List (List Batch)}

theorem Snapshot.Told.of_entities_eq (h' : s.Told h H) (he : s'.entities = s.entities) :
    s'.Told h H := by
  refine ⟨?_, fun k => ?_⟩
  · rw [he]
    exact h'.known
  · rw [Snapshot.number_congr he]
    exact h'.plain k

/-- What ends well without events leaves the history, but for the mention of it. -/
theorem Snapshot.Told.of_isEmpty (h' : s.Told h H) (hx : x.isEmpty = true) :
    s.Told (h ++ [(config, x)]) H := by
  have hnil := x.events_eq_nil hx
  refine ⟨fun p hp => ?_, fun k => ?_⟩
  · rcases List.mem_append.1 hp with hp | hp
    · exact h'.known p hp
    · rw [List.mem_singleton.1 hp, hnil]
      exact nofun
  · have hchanges : k.changes s.number [] = [] := rfl
    rw [History.changes_concat, hnil, hchanges, ite_self, List.append_nil]
    exact h'.plain k

/-- The rows that an invocation adds are those of its changes. -/
theorem Snapshot.Told.gained (h' : s.Told h H) (hg : s.Gained n config x bss s') :
    s'.Told (h ++ [(config, x)]) fun k => H k ++ s.plainGains config x k := by
  have hnumber : s'.number = s.numbering config x :=
    Snapshot.number_congr (s := (s.idle.prepared config x).working) hg.entities
  have hget : ∀ {a e}, s.entities.get? a = some e → s'.entities.get? a = some e := fun ha => by
    rw [hg.entities]
    exact get?_prepared_of_some ha
  refine ⟨fun p hp y hy q hq => ?_, fun k => ?_⟩
  · rcases List.mem_append.1 hp with hp | hp
    · obtain ⟨e, he⟩ := h'.known p hp y hy q hq
      exact ⟨e, hget he⟩
    · rw [List.mem_singleton.1 hp] at hy hq
      rw [hg.entities]
      exact World.exists_get?_demandAll (List.mem_flatMap.2 ⟨y, hy, hq⟩)
  · have hnew : (s.plainGains config x k).map (fun y => (y.groupKey, y.change))
        = (if k.domain.name ∈ config.domains.enabled then k.changes s'.number x.events else []).map
          fun y => (y.1, k.reread y.2) := by
      rw [plainGains, hnumber]
      split
      · rw [List.map_map, PlainKind.made]
        conv_rhs => rw [← map_enumerated (s.nextIds k.domain.table.name)
          (k.changes (s.numbering config x) x.events), List.map_map]
        rfl
      · rfl
    rw [History.changes_concat, List.map_append, List.map_append, h'.plain k, hnew,
      History.changes_congr (Snapshot.number_eq_of_known h'.known hget) k]

end Told

/-- A state that attempts lead to is sound and holds rows with increasing ids, and those of the domains
without lists are those of the changes that were committed, in order. -/
theorem History.Reaches.told {h : History} {n : Nat} {s : Snapshot} (hs : h.Reaches n s)
    (hroom : n < 2 ^ 63) : s.Sound n ∧ ∃ C H, s.Stored C H ∧ s.Told h H := by
  induction hs with
  | start => exact ⟨Snapshot.sound_empty, _, _, Snapshot.stored_empty, nofun, fun _ => rfl⟩
  | @failed h n s config x e w' hs hrun ih =>
    obtain ⟨hsound, C, H, hst, ht⟩ := ih (by omega)
    rcases hx : x.isEmpty with _ | _
    · rcases runs_recordExtension hx hrun with ⟨_, hadv⟩ | ⟨⟨_, he⟩, _⟩
      · exact ⟨hsound.advanced hadv hroom, C, H, hst.of_tables_eq hadv.tables,
          ht.of_entities_eq hadv.entities⟩
      · cases he
    · obtain ⟨he, _⟩ := runs_recordExtension_of_isEmpty hx hrun
      cases he
  | @recorded h n s config x report w' hs hrun ih =>
    obtain ⟨hsound, C, H, hst, ht⟩ := ih (by omega)
    rcases hx : x.isEmpty with _ | _
    · rcases runs_recordExtension hx hrun with ⟨⟨_, he⟩, _⟩ | ⟨_, hcalm⟩
      · cases he
      · obtain ⟨B, hB, hrecalls⟩ := hst.recalls hsound.keyed
        obtain ⟨bss, hout, hg⟩ := gained_of_calm hsound hrecalls hroom hx hcalm
        exact ⟨hg.sound, _, _, hst.gained hsound hroom hB hout hg, ht.gained hg⟩
    · obtain ⟨_, rfl⟩ := runs_recordExtension_of_isEmpty hx hrun
      exact ⟨hsound.mono (by omega), C, H, hst, ht.of_isEmpty hx⟩

theorem History.Reaches.stored {h : History} {n : Nat} {s : Snapshot} (hs : h.Reaches n s)
    (hroom : n < 2 ^ 63) : s.Sound n ∧ ∃ C H, s.Stored C H := by
  obtain ⟨hsound, C, H, hst, _⟩ := hs.told hroom
  exact ⟨hsound, C, H, hst⟩

end LedgerHistory
