import LedgerHistory.Proofs.Recording.Completion

/-!
# The state after an invocation

A calm invocation that ends well leaves a sound state, in which each enabled domain has its new rows
behind the old ones and all other tables are as they were (`completed_of_calm`).
-/

namespace LedgerHistory

section Rows

variable {bs : List Batch} {b : Batch}

theorem filter_reread (hnd : (bs.map (·.table.name)).Nodup) (hb : b ∈ bs) :
    ((bs.map fun b => (b.table.name, b.reread)).filter (·.1 = b.table.name)).flatMap (·.2)
      = b.reread := by
  induction bs with
  | nil => cases hb
  | cons b' bs ih =>
    obtain ⟨hb', hnd⟩ := List.nodup_cons.1 hnd
    rw [List.map_cons]
    rcases List.mem_cons.1 hb with rfl | hb
    · have hnil : (bs.map fun b => (b.table.name, b.reread)).filter (·.1 = b.table.name) = [] := by
        simp only [List.filter_eq_nil_iff, List.mem_map, decide_eq_true_eq]
        rintro _ ⟨b', hm, rfl⟩ he
        exact hb' (List.mem_map.2 ⟨b', hm, he⟩)
      rw [List.filter_cons_of_pos (by simp), hnil]
      simp
    · have hne : ¬ b'.table.name = b.table.name := fun he => hb' (List.mem_map.2 ⟨b, hb, he.symm⟩)
      rw [List.filter_cons_of_neg (by simpa using hne)]
      exact ih hnd hb

theorem zip_reread {reads : List (List Row)} (h : List.Forall₂ Batch.ReadsBack bs reads) :
    (bs.map (·.table.name)).zip reads = bs.map fun b => (b.table.name, b.reread) := by
  induction h with
  | nil => rfl
  | cons hb _ ih => rw [List.map_cons, List.zip_cons_cons, ih, List.map_cons, (Batch.readsBack_iff.1 hb).2]

end Rows

/-! ## Ids and sequences -/

section Ids

variable {bs : List Batch} {start : String → Int64} {s s₂ : Snapshot}
  (happ : Snapshot.Appended (bs.map fun b => (b.table.name, b.reread)) s s₂)

include happ

theorem Snapshot.Appended.table_of_forall_ne {name : String} (h : ∀ b ∈ bs, b.table.name ≠ name) :
    s₂.table name = s.table name := by
  refine happ.untouched name fun e he => ?_
  obtain ⟨b, hb, rfl⟩ := List.mem_map.1 he
  exact h b hb

variable (hn : (bs.map (·.table.name)).Nodup) (hids : ∀ b ∈ bs, b.Consecutive start)

include hn hids

/-- The ids of a batch's rows stand behind those that its table had. -/
theorem Snapshot.Appended.ids_of_mem (hkeyed : s.Keyed) {b : Batch} (hb : b ∈ bs) :
    (s₂.table b.table.name).ids
      = (s.table b.table.name).ids ++ idsFrom (start b.table.name) b.rows.length := by
  refine happ.ids_eq hkeyed ?_
  rw [filter_reread hn hb]
  exact hids b hb

/-- With the last ids recorded no sequence is behind an id of its table, if none was before. -/
theorem Snapshot.Appended.ids_le_raiseAll (hkeyed : s.Keyed)
    (hold : ∀ name, ∀ id ∈ (s.table name).ids,
      id.toInt ≤ (s.sequence (Table.sequenceNameOf name)).toInt)
    (hfits : ∀ b ∈ bs, (start b.table.name).toInt + b.rows.length < 2 ^ 63) {a : Allocator}
    (ha : a.Issued (bs.map (·.table)) start (rowCount bs)) (name : String) :
    ∀ id ∈ (s₂.table name).ids,
      id.toInt ≤ ((s₂.raiseAll a.lastIssued).sequence (Table.sequenceNameOf name)).toInt := by
  have hle : ∀ name, (s.sequence name).toInt ≤ ((s₂.raiseAll a.lastIssued).sequence name).toInt :=
    fun name => by
      rw [Snapshot.sequence, ← happ.sequences]
      exact Snapshot.le_sequence_raiseAll ..
  intro id hid
  by_cases hname : ∀ b ∈ bs, b.table.name ≠ name
  · rw [happ.table_of_forall_ne hname] at hid
    exact Int.le_trans (hold name id hid) (hle _)
  push Not at hname
  obtain ⟨b, hb, rfl⟩ := hname
  rw [happ.ids_of_mem hn hids hkeyed hb, List.mem_append] at hid
  rcases hid with hid | hid
  · exact Int.le_trans (hold _ id hid) (hle _)
  · -- a new id is at most the last one issued for its table, which the sequence is raised to
    have hlast := (mem_idsFrom (hfits b hb) id hid).2
    rw [Int64.lt_iff_toInt_lt, toInt_add_ofNat (hfits b hb)] at hlast
    have hpos : b.rows.length ≠ 0 := fun h0 => by
      rw [h0] at hid
      cases hid
    have hcount : ∀ t ∈ bs.map (·.table), (start t.name).toInt + rowCount bs t.name < 2 ^ 63 := by
      refine List.forall_mem_map.2 fun b hb => ?_
      rw [rowCount_of_mem hn hb]
      exact hfits b hb
    have hsave := Allocator.calm_save (s := s₂) ha (by rwa [List.map_map]) hcount
      (List.mem_map_of_mem hb)
    rw [rowCount_of_mem hn hb, if_neg hpos] at hsave
    rw [← Table.sequenceName]
    omega

end Ids

section Growth

variable {n : Nat} {s : Snapshot} {C : Chronicles} {config : Configuration} {x : LedgerExtension}
  {bss : List (List Batch)} {report : InvocationReport} {w' : World} {s' : Snapshot}

/-- A calm invocation that ends well has made all rows, written them and raised the sequences. -/
theorem committed_of_calm (hs : s.Sound n) (hC : s.Recalls C) (hx : x.isEmpty = false)
    (h : (recordExtension config x).calm s.idle = (.ok report, w')) :
    ∃ (bss : List (List Batch)) (s₂ : Snapshot) (a : Allocator), outcomes s C config x = .ok bss
      ∧ a.Issued config.domains.tables s.nextIds (rowCount bss.flatten)
      ∧ Snapshot.Appended (bss.flatten.map fun b => (b.table.name, b.reread))
        (s.idle.prepared config x).working s₂
      ∧ w'.committed = s₂.raiseAll a.lastIssued := by
  have hroute := routable_of_calm hs.addressed hx h
  rw [calm_recordExtension hx, show s.idle.opened = s.idle from rfl] at h
  rcases hout : outcomes s C config x with e | bss
  · obtain ⟨w, hstages⟩ := calm_runStages_of_error hs hC hroute hout
    rw [hstages] at h
    cases h
  · obtain ⟨known, a, hissued, hstages⟩ := calm_runStages_of_ok hs hC hroute hout
    rw [hstages] at h
    rcases hw : (WriteTally.writeEach {} bss.flatten).run.calm (s.idle.prepared config x)
      with ⟨e | tally, w⟩
    · rw [hw] at h
      cases h
    · rw [hw] at h
      cases h
      obtain ⟨reads, hreads, hcommitted, happ⟩ := WriteTally.calm_writeEach
        (fun b hb => (tables_ok_of_mem hout hb).1) (fun b hb => (tables_ok_of_mem hout hb).2) hw
      rw [zip_reread hreads] at happ
      refine ⟨bss, w.working, a, rfl, hissued, happ, ?_⟩
      have hadv := advanced_prepared config x s.idle
      have hcommit := World.commit_raiseAll (hadv.nodup hs.nodup) (s := w.working)
        (happ.sequences.trans (alone_prepared config x s)) a.lastIssued
      rw [← hcommitted] at hcommit
      exact hcommit

section Sound

variable {s₂ : Snapshot} {a : Allocator} (hs : s.Sound n)
  (hroom : n + (1 + 2 * x.eventCount) < 2 ^ 63) (hout : outcomes s C config x = .ok bss)
  (hissued : a.Issued config.domains.tables s.nextIds (rowCount bss.flatten))
  (happ : Snapshot.Appended (bss.flatten.map fun b => (b.table.name, b.reread))
    (s.idle.prepared config x).working s₂)

include hs hroom hout

theorem rowCount_le {t : Table} (ht : t ∈ config.domains.tables) :
    rowCount bss.flatten t.name ≤ x.eventCount
      ∧ (s.nextIds t.name).toInt + rowCount bss.flatten t.name < 2 ^ 63 := by
  rw [← tables_outcomes hout] at ht
  obtain ⟨b, hb, rfl⟩ := List.mem_map.1 ht
  have hlen := (mem_outcomes hout hb).2
  have hnext := toInt_nextIds hs hroom b.table.name
  have hbound := hs.bound (Table.sequenceNameOf b.table.name)
  rw [rowCount_of_mem (nodup_outcomes hout) hb]
  omega

include hissued

include happ

/-- The sequence of a table ends at the last id issued, or at the first if none was. -/
theorem sequence_of_mem {b : Batch} (hb : b ∈ bss.flatten) :
    ((s₂.raiseAll a.lastIssued).sequence b.table.sequenceName).toInt
      = (s.nextIds b.table.name).toInt + (b.rows.length - 1 : Nat) := by
  have ht : b.table ∈ config.domains.tables := by
    rw [← tables_outcomes hout]
    exact List.mem_map_of_mem hb
  have hstart : s₂.sequence b.table.sequenceName = s.nextIds b.table.name := by
    rw [Snapshot.sequence, happ.sequences, alone_prepared]
    exact sequence_prepared ht s.idle
  have hsave := Allocator.calm_save (s := s₂) hissued config.domains.nodup_tables
    (fun t ht => (rowCount_le hs hroom hout ht).2) ht
  rw [rowCount_of_mem (nodup_outcomes hout) hb, hstart] at hsave
  rw [hsave]
  split <;> omega

omit happ in
/-- No last id is beyond the bound of the sequences. -/
theorem lastIssued_le {y : Table × Int64} (hy : y ∈ a.lastIssued) :
    y.2.toInt ≤ (n + (1 + 2 * x.eventCount) : Nat) := by
  obtain ⟨hty, hpos, hval⟩ := (Allocator.mem_lastIssued hissued config.domains.nodup_tables
    fun t ht => (rowCount_le hs hroom hout ht).2).1 hy
  obtain ⟨hcount, hfits⟩ := rowCount_le hs hroom hout hty
  have hnext := toInt_nextIds hs hroom y.1.name
  have hbound := hs.bound (Table.sequenceNameOf y.1.name)
  have hv : y.2.toInt = (s.nextIds y.1.name).toInt + rowCount bss.flatten y.1.name - 1 := by
    rw [hval, Int64.toInt_sub, toInt_add_ofNat hfits, show (1 : Int64).toInt = 1 from rfl]
    have hl := Int64.le_toInt (s.nextIds y.1.name)
    exact Int.bmod_eq_of_le (by omega) (by omega)
  omega

/-- A sound state is sound again once batches of new ids are written and the last ids recorded. -/
theorem sound_raiseAll : (s₂.raiseAll a.lastIssued).Sound (n + (1 + 2 * x.eventCount)) := by
  have hp := hs.prepared config hroom
  obtain ⟨ht, he⟩ := Allocator.frame_raiseAll (s := s₂) a.lastIssued
  have htable : ∀ name, (s₂.raiseAll a.lastIssued).table name = s₂.table name := fun name => by
    simp only [Snapshot.table, ht]
  refine ⟨hp.addressed.of_entities_eq (he.trans happ.entities),
    hp.numbered.of_entities_eq (he.trans happ.entities) ?_, fun name => ?_, ?_, fun name => ?_,
    fun name => Snapshot.sequence_raiseAll_le ?_ fun y => lastIssued_le hs hroom hout hissued⟩
  · rw [Snapshot.sequence, ← happ.sequences]
    exact Snapshot.le_sequence_raiseAll ..
  · rw [Snapshot.rows, htable]
    exact happ.keyed hp.keyed name
  · refine Snapshot.nodup_raiseAll ?_ _
    rw [happ.sequences]
    exact hp.nodup
  · rw [htable]
    rw [← tables_outcomes hout] at hissued
    refine happ.ids_le_raiseAll (nodup_outcomes hout) (fun b hb => (mem_outcomes hout hb).1) hp.keyed
      hp.ids (fun b hb => ?_) hissued name
    rw [← rowCount_of_mem (nodup_outcomes hout) hb]
    exact (rowCount_le hs hroom hout (tables_outcomes hout ▸ List.mem_map_of_mem hb)).2
  · rw [Snapshot.sequence, happ.sequences]
    exact hp.bound name

end Sound

/-- What the batches of an invocation that ends well leave in the place of a state. -/
structure Snapshot.Gained (n : Nat) (s : Snapshot) (config : Configuration) (x : LedgerExtension)
    (bss : List (List Batch)) (s' : Snapshot) : Prop where
  sound : s'.Sound (n + (1 + 2 * x.eventCount))
  entities : s'.entities = (s.idle.prepared config x).working.entities
  rows {b : Batch} (hb : b ∈ bss.flatten) : s'.rows b.table.name = s.rows b.table.name ++ b.reread
  sequences {b : Batch} (hb : b ∈ bss.flatten) : (s'.sequence b.table.sequenceName).toInt
    = (s.nextIds b.table.name).toInt + (b.rows.length - 1 : Nat)
  kept {name : String} (h : ∀ t ∈ config.domains.tables, t.name ≠ name) : s'.rows name = s.rows name

/-- A calm invocation that ends well leaves each batch behind the old rows of its table. -/
theorem gained_of_calm (hs : s.Sound n) (hC : s.Recalls C)
    (hroom : n + (1 + 2 * x.eventCount) < 2 ^ 63) (hx : x.isEmpty = false)
    (h : (recordExtension config x).calm s.idle = (.ok report, w')) :
    ∃ bss, outcomes s C config x = .ok bss ∧ s.Gained n config x bss w'.committed := by
  obtain ⟨bss, s₂, a, hout, hissued, happ, hcommitted⟩ := committed_of_calm hs hC hx h
  obtain ⟨ht, he⟩ := Allocator.frame_raiseAll (s := s₂) a.lastIssued
  have hrows : ∀ name, w'.committed.rows name = s.rows name
      ++ ((bss.flatten.map fun b => (b.table.name, b.reread)).filter (·.1 = name)).flatMap (·.2) := by
    intro name
    have hnew : w'.committed.rows name = s₂.rows name := by
      simp only [hcommitted, Snapshot.rows, Snapshot.table, ht]
    have hold : (s.idle.prepared config x).working.rows name = s.rows name := by
      simp only [Snapshot.rows, Snapshot.table, tables_prepared]
      rfl
    rw [hnew, happ.rows, hold]
  refine ⟨bss, hout, hcommitted ▸ sound_raiseAll hs hroom hout hissued happ, ?_, fun {b} hb => ?_,
    fun {b} hb => ?_, fun {name} hname => ?_⟩
  · rw [hcommitted]
    exact he.trans happ.entities
  · rw [hrows, filter_reread (nodup_outcomes hout) hb]
  · rw [hcommitted]
    exact sequence_of_mem hs hroom hout hissued happ hb
  · rw [hrows, List.filter_eq_nil_iff.2, List.flatMap_nil, List.append_nil]
    simp only [List.mem_map, decide_eq_true_eq]
    rintro _ ⟨b, hb, rfl⟩
    refine hname b.table ?_
    rw [← tables_outcomes hout]
    exact List.mem_map_of_mem hb

/-- The next id of a table stands behind those of its batch. Without any an id is passed over. -/
theorem Snapshot.Gained.nextIds_eq (hg : s.Gained n config x bss s') {b : Batch}
    (hb : b ∈ bss.flatten) : s'.nextIds b.table.name
      = s.nextIds b.table.name + Int64.ofNat (b.rows.length - 1) + 1 := by
  have h := congrArg Int64.ofInt (hg.sequences hb)
  rw [Int64.ofInt_toInt, Int64.ofInt_add, Int64.ofInt_toInt, Int64.ofInt_eq_ofNat] at h
  exact congrArg (· + 1) h

/-- The rows that a domain with lists makes stand behind those that it has. -/
theorem Snapshot.Gained.holds (hg : s.Gained n config x bss s') (hout : outcomes s C config x = .ok bss)
    {k : ListKind} (hk : k.domain.name ∈ config.domains.enabled) {B R : NewRows k.domain}
    (hB : s.Holds k B) (hR : k.made (C k) s.nextIds (s.numbering config x) x.events = .ok R) :
    s'.Holds k (B ++ k.rereadRows R) := by
  obtain ⟨bs, hbs, hd⟩ := exists_outcome hout hk
  rw [k.outcome_name, hR] at hd
  cases hd
  have hrow : ∀ b ∈ k.batchesOf R, s'.rows b.table.name = s.rows b.table.name ++ b.reread :=
    fun b hb => hg.rows (List.mem_flatten.2 ⟨_, hbs, hb⟩)
  refine ⟨(hrow _ (k.mem_batchesOf.2 (.inl rfl))).trans ?_,
    (hrow _ (k.mem_batchesOf.2 (.inr (.inl rfl)))).trans ?_,
    fun {t} ht => (hrow _ (k.mem_batchesOf.2 (.inr (.inr ⟨t, ht, rfl⟩)))).trans ?_⟩
  · rw [Batch.reread_ofRows k.reread_encodeEntry, NewRows.entries_append, List.map_append]
    exact congrArg (· ++ _) hB.entries
  · rw [Batch.reread_ofRows (f := id) k.reread_aggregateRow, NewRows.aggregates_append,
      List.map_append, List.map_id]
    exact congrArg (· ++ _) hB.aggregates
  · rw [Batch.reread_ofRows (ListKind.reread_encodeSingleton ht), NewRows.singletons_append,
      List.map_append]
    exact congrArg (· ++ _) (hB.singletons ht)

theorem Snapshot.Gained.plain (hg : s.Gained n config x bss s')
    (hout : outcomes s C config x = .ok bss) {k : PlainKind}
    (hk : k.domain.name ∈ config.domains.enabled) :
    s'.rows k.domain.table.name = s.rows k.domain.table.name
      ++ ((k.made s.nextIds (s.numbering config x) x.events).map (·.map k.reread)).map
        k.domain.encode := by
  obtain ⟨bs, hbs, hd⟩ := exists_outcome hout hk
  rw [k.outcome_name] at hd
  cases hd
  refine (hg.rows (List.mem_flatten.2 ⟨_, hbs, List.mem_singleton_self _⟩)).trans ?_
  rw [Batch.reread_ofRows k.reread_encode]
  rfl

/-- What an invocation that ends well leaves in the place of a state. -/
structure Snapshot.Completed (n : Nat) (s : Snapshot) (C : Chronicles) (config : Configuration)
    (x : LedgerExtension) (s' : Snapshot) : Prop where
  sound : s'.Sound (n + (1 + 2 * x.eventCount))
  admitted : s.Admits C config x
  entities : s'.entities = (s.idle.prepared config x).working.entities
  lists {k : ListKind} (hk : k.domain.name ∈ config.domains.enabled) {R : NewRows k.domain}
    (hR : k.made (C k) s.nextIds (s.numbering config x) x.events = .ok R) :
    s'.Holds k (C k ++ k.rereadRows R)
  plain {k : PlainKind} (hk : k.domain.name ∈ config.domains.enabled) :
    s'.rows k.domain.table.name = s.rows k.domain.table.name
      ++ ((k.made s.nextIds (s.numbering config x) x.events).map (·.map k.reread)).map k.domain.encode
  kept {name : String} (h : ∀ t ∈ config.domains.tables, t.name ≠ name) : s'.rows name = s.rows name

/-- A calm invocation that ends well leaves the rows of its domains behind the old ones. -/
theorem completed_of_calm (hs : s.Sound n) (hC : s.Chronicled C)
    (hroom : n + (1 + 2 * x.eventCount) < 2 ^ 63) (hx : x.isEmpty = false)
    (h : (recordExtension config x).calm s.idle = (.ok report, w')) :
    s.Completed n C config x w'.committed := by
  obtain ⟨bss, hout, hg⟩ := gained_of_calm hs hC.recalls hroom hx h
  exact ⟨hg.sound, (calm_recordExtension_isOk_iff hs hC.recalls hroom hx).1 ⟨_, _, h⟩, hg.entities,
    fun {k} hk {_} hR => hg.holds hout hk (hC.holds k) hR, hg.plain hout, hg.kept⟩

end Growth

end LedgerHistory
