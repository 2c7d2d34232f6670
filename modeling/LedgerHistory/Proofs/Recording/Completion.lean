import LedgerHistory.Proofs.Aggregate.Grouped
import LedgerHistory.Proofs.Recording.Domains
import LedgerHistory.Proofs.Recording.Sound
import LedgerHistory.Proofs.Recording.Storable

/-!
# What a calm invocation comes to

In a sound state that holds a chronicle for each domain with lists, whatever order its rows stand in, a
calm invocation ends well if and
only if its events can be routed and every enabled domain makes rows that can be stored
(`calm_recordExtension_isOk_iff`). Then these rows, as they are read back, stand behind the old ones
(`completed_of_calm`).
-/

namespace LedgerHistory

/-! ## The batches of the domains -/

section Outcomes

variable {C : Chronicles} {start : String → Int64} {number : Numbering}
  {xs : List (Int64 × SubstateEvent)}

theorem ListKind.outcome_name (k : ListKind) : k.domain.name.outcome C start number xs
    = (k.made (C k) start number xs).map k.batchesOf := by
  cases k <;> rfl

theorem PlainKind.outcome_name (k : PlainKind) : k.domain.name.outcome C start number xs
    = .ok (k.batchesOf (k.made start number xs)) := by
  cases k <;> rfl

/-- The rows of a domain do not outnumber the events. -/
theorem ListKind.length_made_le {k : ListKind} {B R : NewRows k.domain}
    (h : k.made B start number xs = .ok R) : R.entries.length ≤ xs.length
      ∧ R.aggregates.length ≤ xs.length ∧ R.singletons.length ≤ xs.length := by
  have ht := NewRows.tells_rowsAfter h
  have hvisits : (k.visits number xs).length ≤ xs.length := List.length_filterMap_le ..
  have he := congrArg List.length ht.entries
  have ha := congrArg List.length ht.aggregates
  have hs := congrArg List.length ht.singletons
  rw [List.length_map] at he hs
  rw [List.length_map, List.length_map] at ha
  have hle := GroupedChanges.length_entriesOf_le (k.visits number xs)
  have hla := GroupedChanges.length_toList_le (k.visits number xs)
  have hls := GroupedChanges.length_singletonsOf_le (k.visits number xs)
  unfold groups at he ha hs
  omega

theorem PlainKind.length_made_le (k : PlainKind) (start : String → Int64) :
    (k.made start number xs).length ≤ xs.length := by
  rw [made, length_enumerated, changes, List.length_map]
  exact List.length_filterMap_le ..

/-- The ids of a batch, as it is read back, are consecutive from the start of its table. -/
def Batch.Consecutive (start : String → Int64) (b : Batch) : Prop :=
  b.reread.map (Row.at · 0) = (idsFrom (start b.table.name) b.rows.length).map .int8

theorem Batch.consecutive_ofRows {α : Type} {t : Table} {xs : List α} {encode : α → Row}
    (id : α → Int64) (hat : ∀ x ∈ xs, Row.at (encode x).reread 0 = .int8 (id x))
    (hid : xs.map id = idsFrom (start t.name) xs.length) :
    (Batch.ofRows t (xs.map encode)).Consecutive start := by
  have hlen : (Batch.ofRows t (xs.map encode)).rows.length = xs.length := by simp [Batch.ofRows]
  have htable : (Batch.ofRows t (xs.map encode)).table = t := rfl
  rw [Consecutive, hlen, htable, ← hid, reread, written_ofRows, List.map_map, List.map_map,
    List.map_map]
  exact List.map_congr_left hat

theorem ListKind.consecutive_batchesOf {k : ListKind} {B R : NewRows k.domain}
    {gs : List k.domain.Group} (h : B.rowsAfter (k.domain.firstIds start) gs = .ok R) :
    ∀ b ∈ k.batchesOf R, b.Consecutive start := by
  obtain ⟨he, ha, hs⟩ := NewRows.ids_rowsAfter h
  have hentry : (Batch.ofRows k.domain.entryTable
      (R.entries.map k.domain.encodeEntry)).Consecutive start := by
    refine Batch.consecutive_ofRows (·.id) (fun x _ => ?_) he
    rw [k.reread_encodeEntry]
    cases k <;> rfl
  have haggregate : (Batch.ofRows k.domain.aggregateSchema.table
      (R.aggregates.map k.domain.aggregateRow)).Consecutive start := by
    refine Batch.consecutive_ofRows (·.id) (fun a _ => ?_) ha
    rw [k.reread_aggregateRow]
    rfl
  have hsingleton : ∀ t, k.domain.singletonTable = some t →
      (Batch.ofRows t.table (R.singletons.map t.encode)).Consecutive start := by
    intro t ht
    refine Batch.consecutive_ofRows (·.id) (fun x _ => ?_) ?_
    · rw [ListKind.reread_encodeSingleton ht]
      cases k <;> cases ht
      rfl
    · simpa [ListDomain.firstIds, ht] using hs
  intro b hb
  rcases k.mem_batchesOf.1 hb with rfl | rfl | ⟨t, ht, rfl⟩
  · exact hentry
  · exact haggregate
  · exact hsingleton t ht

theorem PlainKind.consecutive_batchesOf (k : PlainKind) (ys : List (GroupKey × k.domain.Change)) :
    ∀ b ∈ k.batchesOf (enumerated (start k.domain.table.name) ys), b.Consecutive start := by
  intro b hb
  rw [List.mem_singleton.1 hb]
  refine Batch.consecutive_ofRows (·.id) (fun x _ => ?_) ?_
  · rw [k.reread_encode]
    cases k <;> rfl
  · rw [map_id_enumerated, length_enumerated]

/-- What holds of the batches of every domain that makes its rows. -/
theorem DomainName.outcome_eq_ok {d : DomainName} {bs : List Batch}
    (h : d.outcome C start number xs = .ok bs) : bs.map (·.table) = d.tables
      ∧ ∀ b ∈ bs, b.Consecutive start ∧ b.rows.length ≤ xs.length := by
  rcases d.eq_name with ⟨k, rfl⟩ | ⟨k, rfl⟩
  · rw [k.outcome_name] at h
    obtain ⟨R, hR, rfl⟩ := map_eq_ok.1 h
    obtain ⟨he, ha, hs⟩ := ListKind.length_made_le hR
    refine ⟨by cases k <;> rfl, fun b hb => ⟨ListKind.consecutive_batchesOf hR b hb, ?_⟩⟩
    rcases k.mem_batchesOf.1 hb with rfl | rfl | ⟨t, ht, rfl⟩ <;> simpa [Batch.ofRows]
  · rw [k.outcome_name] at h
    cases h
    refine ⟨by cases k <;> rfl, fun b hb => ⟨k.consecutive_batchesOf _ b hb, ?_⟩⟩
    rw [List.mem_singleton.1 hb]
    simpa [Batch.ofRows] using k.length_made_le start

end Outcomes

section Batches

variable {s : Snapshot} {C : Chronicles} {config : Configuration} {x : LedgerExtension}
  {bss : List (List Batch)}

theorem outcomes_eq_ok : outcomes s C config x = .ok bss ↔ List.Forall₂ (fun d bs =>
    DomainName.outcome C s.nextIds (s.numbering config x) x.events d = .ok bs)
      config.domains.enabled bss := mapM_eq_ok

/-- The batches of all domains are those of their tables, in order. -/
theorem tables_outcomes (h : outcomes s C config x = .ok bss) :
    bss.flatten.map (·.table) = config.domains.tables := by
  replace h := outcomes_eq_ok.1 h
  rw [DomainSwitches.tables]
  generalize config.domains.enabled = ds at h
  induction h with
  | nil => rfl
  | cons hd _ ih =>
    rw [List.flatten_cons, List.map_append, ih, (DomainName.outcome_eq_ok hd).1, List.flatMap_cons]

theorem mem_outcomes (h : outcomes s C config x = .ok bss) {b : Batch} (hb : b ∈ bss.flatten) :
    b.Consecutive s.nextIds ∧ b.rows.length ≤ x.eventCount := by
  obtain ⟨bs, hbs, hb⟩ := List.mem_flatten.1 hb
  obtain ⟨d, _, hd⟩ := exists_of_forall₂ (outcomes_eq_ok.1 h) hbs
  exact (DomainName.outcome_eq_ok hd).2 b hb

theorem nodup_outcomes (h : outcomes s C config x = .ok bss) :
    (bss.flatten.map (·.table.name)).Nodup := by
  have hn := config.domains.nodup_tables
  rw [← tables_outcomes h, List.map_map] at hn
  exact hn

end Batches

/-! ## Whether it ends well -/

section Invocation

variable {n : Nat} {s : Snapshot} {C : Chronicles} {config : Configuration} {x : LedgerExtension}
  {bss : List (List Batch)}

theorem toInt_nextIds (h : s.Sound n) (hroom : n + (1 + 2 * x.eventCount) < 2 ^ 63) (name : String) :
    (s.nextIds name).toInt = (s.sequence (Table.sequenceNameOf name)).toInt + 1 := by
  have hb := h.bound (Table.sequenceNameOf name)
  exact toInt_add_one (by omega)

/-- Ids above those of a table are new to it. -/
theorem Snapshot.fresh_of_lt {name : String} {rows : List Row} {first : Int64} {m : Nat}
    (hids : rows.map (Row.at · 0) = (idsFrom first m).map .int8) (hfits : first.toInt + m < 2 ^ 63)
    (hlt : ∀ id ∈ (s.table name).ids, id.toInt < first.toInt) : s.Fresh name rows := by
  refine ⟨_, hids, nodup_of_increasing (increasing_idsFrom (Int.le_of_lt hfits)), fun id hid hm => ?_⟩
  have hold := hlt id hm
  have hge := (mem_idsFrom hfits id hid).1
  rw [Int64.le_iff_toInt_le] at hge
  omega

/-- New ids are not in use. -/
theorem fresh_of_mem (h : s.Sound n) (hroom : n + (1 + 2 * x.eventCount) < 2 ^ 63)
    (hbss : outcomes s C config x = .ok bss) {b : Batch} (hb : b ∈ bss.flatten) :
    (s.idle.prepared config x).working.Fresh b.table.name b.reread := by
  obtain ⟨hids, hlen⟩ := mem_outcomes hbss hb
  have hbound := h.bound (Table.sequenceNameOf b.table.name)
  have hnext := toInt_nextIds h hroom b.table.name
  have hfits : (s.nextIds b.table.name).toInt + b.rows.length < 2 ^ 63 := by omega
  have htable : (s.idle.prepared config x).working.table b.table.name = s.table b.table.name := by
    simp only [Snapshot.table, tables_prepared]
    rfl
  refine Snapshot.fresh_of_lt hids hfits fun id hid => ?_
  rw [htable] at hid
  have hold := h.ids b.table.name id hid
  omega

variable (hs : s.Sound n) (hC : s.Recalls C)
  (hroute : ∀ y ∈ x.events, y.2.IsRoutable config.domains.enabled)

include hs hC hroute

theorem calm_runStages_of_error {e : InvocationError} (hout : outcomes s C config x = .error e) :
    ∃ w', (runStages config x).run.calm s.idle = (.error e, w') := by
  have hprep := calm_prepareRows_outcome hs.addressed hC hroute
  rw [hout] at hprep
  obtain ⟨w', hprep⟩ := hprep
  refine ⟨w', ?_⟩
  rw [runStages_eq, Action.calm_bind, hprep]

/-- The stages once the rows are made: these are written and the last ids recorded. -/
theorem calm_runStages_of_ok (hout : outcomes s C config x = .ok bss) :
    ∃ known a, a.Issued config.domains.tables s.nextIds (rowCount bss.flatten)
      ∧ (runStages config x).run.calm s.idle
        = match (WriteTally.writeEach {} bss.flatten).run.calm (s.idle.prepared config x) with
          | (.ok tally, w) => (.ok (reportOf x known a tally),
              { w with working := w.working.raiseAll a.lastIssued })
          | (.error e, w) => (.error e, w) := by
  have hprep := calm_prepareRows_outcome hs.addressed hC hroute
  rw [hout] at hprep
  obtain ⟨known, rs, a, hprep, hbatches, hissued⟩ := hprep
  refine ⟨known, a, hissued, ?_⟩
  rw [runStages_eq, Action.calm_bind_of_ok hprep]
  simp only [hbatches]
  rw [Action.calm_bind]
  rcases (WriteTally.writeEach {} bss.flatten).run.calm (s.idle.prepared config x) with ⟨e | tally, w⟩
  · rfl
  · simp only
    rw [Action.calm_bind_of_ok (calm_announceStage ..),
      Action.calm_bind_of_ok (Allocator.calm_save_eq ..),
      Action.calm_bind_of_ok (calm_announceStage ..)]
    rfl

end Invocation

section Completion

variable {n : Nat} {s : Snapshot} {C : Chronicles} {config : Configuration} {x : LedgerExtension}
  {bss : List (List Batch)}

theorem tables_ok_of_mem (hout : outcomes s C config x = .ok bss) {b : Batch}
    (hb : b ∈ bss.flatten) : b.table.arity < 0x8000 ∧ b.table.positionOf idColumn = .ok 0 := by
  refine DomainSwitches.tables_ok (s := config.domains) ?_
  rw [← tables_outcomes hout]
  exact List.mem_map_of_mem hb

/-- Rows that are made are written if and only if all can be stored. -/
theorem calm_writeEach_isOk_iff (hs : s.Sound n) (hroom : n + (1 + 2 * x.eventCount) < 2 ^ 63)
    (hout : outcomes s C config x = .ok bss) :
    (∃ tally w, (WriteTally.writeEach {} bss.flatten).run.calm (s.idle.prepared config x)
      = (.ok tally, w)) ↔ ∀ b ∈ bss.flatten, b.Storable := by
  have harity := fun b hb => (tables_ok_of_mem hout (b := b) hb).1
  have hids := fun b hb => (tables_ok_of_mem hout (b := b) hb).2
  constructor
  · rintro ⟨tally, w, h⟩ b hb
    obtain ⟨reads, hreads, _⟩ := WriteTally.calm_writeEach harity hids h
    obtain ⟨read, _, hread⟩ := exists_of_forall₂ hreads.flip hb
    exact (Batch.readsBack_iff.1 hread).1
  · intro h
    refine WriteTally.calm_writeEach_isOk harity hids (nodup_outcomes hout)
      (fun b hb => ⟨b.reread, ?_, fresh_of_mem hs hroom hout hb⟩) {}
    exact Batch.readsBack_iff.2 ⟨h b hb, rfl⟩

theorem exists_outcome (hout : outcomes s C config x = .ok bss) {d : DomainName}
    (hd : d ∈ config.domains.enabled) :
    ∃ bs ∈ bss, d.outcome C s.nextIds (s.numbering config x) x.events = .ok bs :=
  exists_of_forall₂ (outcomes_eq_ok.1 hout).flip hd

/-- Whether events can be routed and all enabled domains make rows of them that can be stored. -/
structure Snapshot.Admits (s : Snapshot) (C : Chronicles) (config : Configuration)
    (x : LedgerExtension) : Prop where
  routable : ∀ y ∈ x.events, y.2.IsRoutable config.domains.enabled
  lists (k : ListKind) (hk : k.domain.name ∈ config.domains.enabled) :
    ∃ R, k.made (C k) s.nextIds (s.numbering config x) x.events = .ok R ∧ k.Storable R
  plain (k : PlainKind) (hk : k.domain.name ∈ config.domains.enabled) :
    ∀ y ∈ k.made s.nextIds (s.numbering config x) x.events,
      k.domain.table.Storable (k.domain.encode y)

theorem admits_iff (hroute : ∀ y ∈ x.events, y.2.IsRoutable config.domains.enabled) :
    s.Admits C config x
      ↔ ∃ bss, outcomes s C config x = .ok bss ∧ ∀ b ∈ bss.flatten, b.Storable := by
  constructor
  · intro h
    have hbatches : ∀ d ∈ config.domains.enabled, ∃ bs,
        d.outcome C s.nextIds (s.numbering config x) x.events = .ok bs ∧ ∀ b ∈ bs, b.Storable := by
      intro d hd
      rcases d.eq_name with ⟨k, rfl⟩ | ⟨k, rfl⟩
      · obtain ⟨R, hR, hstorable⟩ := h.lists k hd
        exact ⟨_, k.outcome_name.trans (map_eq_ok.2 ⟨R, hR, rfl⟩), k.storable_batchesOf.2 hstorable⟩
      · refine ⟨_, k.outcome_name, fun b hb => ?_⟩
        rw [List.mem_singleton.1 hb, Batch.storable_ofRows, List.forall_mem_map]
        exact h.plain k hd
    have hall : ∀ ds : List DomainName, (∀ d ∈ ds, d ∈ config.domains.enabled) →
        ∃ bss, ds.mapM (DomainName.outcome C s.nextIds (s.numbering config x) x.events) = .ok bss
          ∧ ∀ b ∈ bss.flatten, b.Storable := by
      intro ds hds
      induction ds with
      | nil => exact ⟨[], rfl, nofun⟩
      | cons d ds ih =>
        obtain ⟨bs, hbs, hb⟩ := hbatches d (hds d List.mem_cons_self)
        obtain ⟨bss, hbss, hbs'⟩ := ih fun d' h => hds d' (List.mem_cons_of_mem d h)
        refine ⟨bs :: bss, mapM_eq_ok.2 (.cons hbs (mapM_eq_ok.1 hbss)), fun b hm => ?_⟩
        rw [List.flatten_cons, List.mem_append] at hm
        exact hm.elim (hb b) (hbs' b)
    exact hall _ fun d hd => hd
  · rintro ⟨bss, hout, hstorable⟩
    refine ⟨hroute, fun k hk => ?_, fun k hk => ?_⟩
    · obtain ⟨bs, hbs, hd⟩ := exists_outcome hout hk
      rw [k.outcome_name] at hd
      obtain ⟨R, hR, rfl⟩ := map_eq_ok.1 hd
      exact ⟨R, hR, k.storable_batchesOf.1 fun b hb =>
        hstorable b (List.mem_flatten.2 ⟨_, hbs, hb⟩)⟩
    · obtain ⟨bs, hbs, hd⟩ := exists_outcome hout hk
      rw [k.outcome_name] at hd
      cases hd
      have hb := hstorable _ (List.mem_flatten.2 ⟨_, hbs, List.mem_singleton_self _⟩)
      rw [Batch.storable_ofRows, List.forall_mem_map] at hb
      exact hb

theorem routable_of_calm (hs : s.Addressed) (hx : x.isEmpty = false) {report : InvocationReport}
    {w' : World} (h : (recordExtension config x).calm s.idle = (.ok report, w')) :
    ∀ y ∈ x.events, y.2.IsRoutable config.domains.enabled := by
  obtain ⟨_, _, _, hrec⟩ := recorded_of_calm hs hx rfl h
  exact hrec.routable

/-- A calm invocation ends well if and only if its events can be routed and all enabled domains make
rows of them that can be stored. -/
theorem calm_recordExtension_isOk_iff (hs : s.Sound n) (hC : s.Recalls C)
    (hroom : n + (1 + 2 * x.eventCount) < 2 ^ 63) (hx : x.isEmpty = false) :
    (∃ report w', (recordExtension config x).calm s.idle = (.ok report, w'))
      ↔ s.Admits C config x := by
  constructor
  · rintro ⟨report, w', h⟩
    have hroute := routable_of_calm hs.addressed hx h
    rw [calm_recordExtension hx, show s.idle.opened = s.idle from rfl] at h
    rw [admits_iff hroute]
    rcases hout : outcomes s C config x with e | bss
    · obtain ⟨w, hstages⟩ := calm_runStages_of_error hs hC hroute hout
      rw [hstages] at h
      cases h
    · obtain ⟨known, a, _, hstages⟩ := calm_runStages_of_ok hs hC hroute hout
      rw [hstages] at h
      refine ⟨bss, rfl, (calm_writeEach_isOk_iff hs hroom hout).1 ?_⟩
      rcases hw : (WriteTally.writeEach {} bss.flatten).run.calm (s.idle.prepared config x)
        with ⟨e | tally, w⟩
      · rw [hw] at h
        cases h
      · exact ⟨tally, w, rfl⟩
  · intro h
    obtain ⟨bss, hout, hstorable⟩ := (admits_iff h.routable).1 h
    obtain ⟨known, a, _, hstages⟩ := calm_runStages_of_ok hs hC h.routable hout
    obtain ⟨tally, w, hw⟩ := (calm_writeEach_isOk_iff hs hroom hout).2 hstorable
    rw [hw] at hstages
    have hcalm := calm_recordExtension hx config s.idle
    rw [show s.idle.opened = s.idle from rfl, hstages] at hcalm
    exact ⟨_, _, hcalm⟩

/-- A calm invocation of events that can be routed is refused for an invariant if and only if some
enabled domain does not make its rows. -/
theorem calm_recordExtension_refused_iff (hs : s.Sound n) (hC : s.Recalls C)
    (hx : x.isEmpty = false) (hroute : ∀ y ∈ x.events, y.2.IsRoutable config.domains.enabled) :
    (∃ d e v violation w', (recordExtension config x).calm s.idle
      = (.error (.invariantViolation d e v violation), w'))
      ↔ ∃ k : ListKind, k.domain.name ∈ config.domains.enabled ∧ ∃ e,
        k.made (C k) s.nextIds (s.numbering config x) x.events = .error e := by
  have hcalm := calm_recordExtension hx config s.idle
  rw [show s.idle.opened = s.idle from rfl] at hcalm
  rcases hout : outcomes s C config x with e | bss
  · obtain ⟨w, hstages⟩ := calm_runStages_of_error hs hC hroute hout
    obtain ⟨d, hd, hde⟩ := exists_eq_error_of_mapM hout
    rcases d.eq_name with ⟨k, rfl⟩ | ⟨k, rfl⟩
    · rw [k.outcome_name] at hde
      have hmade : k.made (C k) s.nextIds (s.numbering config x) x.events = .error e := by
        rcases hm : k.made (C k) s.nextIds (s.numbering config x) x.events with e' | R
        · rw [hm] at hde
          cases hde
          rfl
        · rw [hm] at hde
          cases hde
      obtain ⟨g, _, v, rfl⟩ := NewRows.rowsAfter_eq_error hmade
      rw [hstages] at hcalm
      exact ⟨fun _ => ⟨k, hd, _, hmade⟩, fun _ => ⟨_, _, _, _, _, hcalm⟩⟩
    · rw [k.outcome_name] at hde
      cases hde
  · obtain ⟨known, a, _, hstages⟩ := calm_runStages_of_ok hs hC hroute hout
    rw [hstages] at hcalm
    constructor
    · rintro ⟨d, e, v, violation, w', h⟩
      rw [h] at hcalm
      rcases hw : (WriteTally.writeEach {} bss.flatten).run.calm (s.idle.prepared config x)
        with ⟨e' | tally, w⟩
      · rw [hw] at hcalm
        obtain ⟨cause, rfl⟩ := WriteTally.calm_writeEach_error hw
        cases hcalm
      · rw [hw] at hcalm
        cases hcalm
    · rintro ⟨k, hk, e, hmade⟩
      obtain ⟨bs, _, hd⟩ := exists_outcome hout hk
      rw [k.outcome_name, hmade] at hd
      cases hd

end Completion

end LedgerHistory
