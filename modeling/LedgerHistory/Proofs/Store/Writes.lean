import Mathlib.Algebra.GroupWithZero.Nat
import LedgerHistory.Invocation.Batch
import LedgerHistory.Proofs.Dictionary
import LedgerHistory.Proofs.Script.Calm
import LedgerHistory.Proofs.Store.Copy

/-!
# Writing batches

A batch that is written appends its rows, as they are read back, to its table and leaves all else as
it is (`WriteTally.calm_writeEach`); it is written if all its rows can be read back and their ids are
new (`WriteTally.calm_writeEach_isOk`).
-/

namespace LedgerHistory

/-! ## Appending rows -/

namespace Snapshot

variable {s s₁ s₂ : Snapshot}

/-- Whether the ids in use are those of the rows, which have them in front. -/
def Keyed (s : Snapshot) : Prop :=
  ∀ name, (s.rows name).map (Row.at · 0) = (s.table name).ids.map .int8

/-- The snapshots differ in that rows were appended to tables, which are given by their names. -/
structure Appended (added : List (String × List Row)) (s s' : Snapshot) : Prop where
  entities : s'.entities = s.entities
  sequences : s'.sequences = s.sequences
  rows (name : String) :
    s'.rows name = s.rows name ++ (added.filter (·.1 = name)).flatMap (·.2)
  untouched (name : String) (h : ∀ e ∈ added, e.1 ≠ name) : s'.table name = s.table name
  keyed (h : s.Keyed) : s'.Keyed

theorem Appended.refl : Appended [] s s := ⟨rfl, rfl, by simp, fun _ _ => rfl, id⟩

theorem Appended.trans {xs ys : List (String × List Row)} (h : Appended xs s s₁)
    (h' : Appended ys s₁ s₂) : Appended (xs ++ ys) s s₂ where
  entities := h'.entities.trans h.entities
  sequences := h'.sequences.trans h.sequences
  rows name := by rw [h'.rows, h.rows, List.filter_append, List.flatMap_append, List.append_assoc]
  untouched name hn := by
    rw [h'.untouched name fun e he => hn e (List.mem_append_right xs he),
      h.untouched name fun e he => hn e (List.mem_append_left ys he)]
  keyed hk := h'.keyed (h.keyed hk)

/-- The ids in use are those of the values behind the rows. -/
theorem Keyed.ids_eq (h : s.Keyed) {α : Type} {name : String} {xs : List α} {encode : α → Row}
    (id : α → Int64) (hat : ∀ x, Row.at (encode x) 0 = .int8 (id x))
    (hrows : s.rows name = xs.map encode) : (s.table name).ids = xs.map id := by
  have hids : xs.map (fun x => ColumnValue.int8 (id x)) = (s.table name).ids.map .int8 := by
    rw [← h name, hrows, List.map_map]
    exact List.map_congr_left fun x _ => (hat x).symm
  rw [← Function.comp_def, ← List.map_map] at hids
  exact ((List.map_inj_right fun _ _ => ColumnValue.int8.inj).1 hids).symm

theorem Keyed.ids_eq_nil (h : s.Keyed) {name : String} (hrows : s.rows name = []) :
    (s.table name).ids = [] := by
  have hids := h name
  rw [hrows] at hids
  exact List.map_eq_nil_iff.1 hids.symm

/-- Rows that stand first have the ids that stand first. -/
theorem Keyed.ids_prefix (h : s.Keyed) (h₁ : s₁.Keyed) {name : String}
    (hrows : s.rows name <+: s₁.rows name) : (s.table name).ids <+: (s₁.table name).ids := by
  obtain ⟨rows, hrows⟩ := hrows
  have hmap := h₁ name
  rw [← hrows, List.map_append, h name, eq_comm, List.map_eq_append_iff] at hmap
  obtain ⟨ids, new, he, hids, _⟩ := hmap
  rw [he, (List.map_inj_right fun _ _ => ColumnValue.int8.inj).1 hids]
  exact List.prefix_append ..

/-- Rows that are appended have their ids behind the old ones. -/
theorem Appended.ids_eq {added : List (String × List Row)} (h : Appended added s s₁) (hk : s.Keyed)
    {name : String} {ids : List Int64}
    (hids : ((added.filter (·.1 = name)).flatMap (·.2)).map (Row.at · 0) = ids.map .int8) :
    (s₁.table name).ids = (s.table name).ids ++ ids := by
  have hkeyed := h.keyed hk name
  rw [h.rows, List.map_append, hk name, hids, ← List.map_append] at hkeyed
  exact ((List.map_inj_right fun _ _ => ColumnValue.int8.inj).1 hkeyed).symm

theorem table_insert (name name' : String) (c : TableContents) :
    ({ s with tables := s.tables.insert name c } : Snapshot).table name'
      = if name = name' then c else s.table name' :=
  Dictionary.getD_insert ..

/-- The ids of a batch are accepted when they are distinct and new. -/
theorem checkIds_eq_ok {t : Table} {i : Nat} {used batch ids : List Int64} {rows : List Row} :
    checkIds t i used batch rows = .ok ids ↔ rows.map (Row.at · i) = ids.map .int8
      ∧ ids.Nodup ∧ ∀ id ∈ ids, id ∉ used ∧ id ∉ batch := by
  induction rows generalizing batch ids with
  | nil => cases ids <;> simp [checkIds]
  | cons row rows ih =>
    rw [checkIds, bind_eq_ok]
    constructor
    · rintro ⟨id, hid, h⟩
      split at h
      · cases h
      rename_i hnew
      obtain ⟨ids, hids, h⟩ := bind_eq_ok.1 h
      cases h
      obtain ⟨hmap, hnd, hfresh⟩ := ih.1 hids
      have hrow : Row.at row i = .int8 id := by
        cases hv : Row.at row i <;> rw [hv] at hid <;> cases hid
        rfl
      simp only [List.contains_eq_mem, Bool.or_eq_true, decide_eq_true_eq, not_or] at hnew
      refine ⟨by simp [hrow, hmap], List.nodup_cons.2 ⟨fun hm => ?_, hnd⟩, fun x hx => ?_⟩
      · exact (hfresh id hm).2 List.mem_cons_self
      · rcases List.mem_cons.1 hx with rfl | hx
        · exact hnew
        · exact ⟨(hfresh x hx).1, fun hb => (hfresh x hx).2 (List.mem_cons_of_mem _ hb)⟩
    · rintro ⟨hmap, hnd, hfresh⟩
      cases ids with
      | nil => simp at hmap
      | cons id ids =>
        simp only [List.map_cons, List.cons.injEq] at hmap
        obtain ⟨hn, hnd⟩ := List.nodup_cons.1 hnd
        have hnew := hfresh id List.mem_cons_self
        refine ⟨id, by rw [hmap.1]; rfl, ?_⟩
        rw [if_neg (by simpa using hnew)]
        refine bind_eq_ok.2 ⟨ids, ih.2 ⟨hmap.2, hnd, fun x hx => ?_⟩, rfl⟩
        have hx' := hfresh x (List.mem_cons_of_mem _ hx)
        refine ⟨hx'.1, fun hb => ?_⟩
        rcases List.mem_cons.1 hb with rfl | hb
        · exact hn hx
        · exact hx'.2 hb

/-- Whether the rows have ids in front that are distinct and that a table does not use yet. -/
def Fresh (s : Snapshot) (name : String) (rows : List Row) : Prop :=
  ∃ ids : List Int64, rows.map (Row.at · 0) = ids.map .int8 ∧ ids.Nodup
    ∧ ∀ id ∈ ids, id ∉ (s.table name).ids

theorem appendRows_of_fresh {t : Table} (ht : t.positionOf idColumn = .ok 0) {rows : List Row}
    (h : s.Fresh t.name rows) : (s.appendRows t rows).2 = .ok rows.length := by
  obtain ⟨ids, hids⟩ := h
  have hc : checkIds t 0 (s.table t.name).ids [] rows = .ok ids :=
    checkIds_eq_ok.2 ⟨hids.1, hids.2.1, fun id hid => ⟨hids.2.2 id hid, List.not_mem_nil⟩⟩
  simp [appendRows, ht, hc]

theorem length_appendRows {t : Table} {rows : List Row} {n : Nat}
    (h : (s.appendRows t rows).2 = .ok n) : n = rows.length := by
  unfold appendRows at h
  split at h
  · cases h
  · simp only at h
    split at h
    · cases h
    · cases h
      rfl

theorem appended_appendRows {t : Table} (ht : t.positionOf idColumn = .ok 0) {rows : List Row}
    {n : Nat} (h : (s.appendRows t rows).2 = .ok n) :
    Appended [(t.name, rows)] s (s.appendRows t rows).1 := by
  simp only [appendRows, ht] at h ⊢
  split at h
  · cases h
  rename_i ids hc
  obtain ⟨hmap, -, -⟩ := checkIds_eq_ok.1 hc
  refine ⟨rfl, rfl, fun name => ?_, fun name hn => ?_, fun hk name => ?_⟩
  · by_cases hname : t.name = name
    · subst hname
      simp [Snapshot.rows, table_insert]
    · simp [Snapshot.rows, table_insert, hname]
  · rw [table_insert, if_neg (hn (t.name, rows) List.mem_cons_self)]
  · by_cases hname : t.name = name
    · subst hname
      simp only [Snapshot.rows, table_insert, if_true, List.map_append, hmap]
      rw [← hk t.name]
      rfl
    · have := hk name
      simpa [Snapshot.rows, table_insert, hname] using this

end Snapshot

/-! ## Batches -/

namespace Batch

/-- Whether all rows of a batch can be written and are read back, as these rows. -/
def ReadsBack (b : Batch) (read : List Row) : Prop :=
  ∃ (rows : List Row) (tuples : List (List UInt8)), b.rows = rows.map .ok
    ∧ rows.mapM b.table.encodeRow = .ok tuples ∧ rows.mapM Row.reread? = some read

/-- The rows of a batch that are made. -/
def written (b : Batch) : List Row := b.rows.filterMap Except.toOption

theorem written_ofRows (t : Table) (rows : List Row) : (ofRows t rows).written = rows := by
  simp [written, ofRows, List.filterMap_map, Function.comp_def, Except.toOption]

theorem ReadsBack.rows_eq {b : Batch} {read : List Row} (h : b.ReadsBack read) :
    b.rows = b.written.map .ok ∧ b.written.mapM Row.reread? = some read := by
  obtain ⟨rows, tuples, hrows, _, hread⟩ := h
  have hw : b.written = rows := by
    simp [written, hrows, List.filterMap_map, Function.comp_def, Except.toOption]
  rw [hw]
  exact ⟨hrows, hread⟩

theorem ReadsBack.length_eq {b : Batch} {read : List Row} (h : b.ReadsBack read) :
    read.length = b.rows.length := by
  obtain ⟨rows, _, hrows, _, hread⟩ := h
  rw [hrows, List.length_map, (mapM_option_eq_some.1 hread).length_eq]

theorem foldlM_write {rs : List (Except StoreError Row)} {w w' : BulkStream} :
    (rs.foldlM (fun w r => do BulkStream.write w (← r)) w) = .ok w' ↔
      ∃ (rows : List Row) (tuples : List (List UInt8)), rs = rows.map .ok
        ∧ rows.mapM w.table.encodeRow = .ok tuples ∧ w' = ⟨w.table, w.tuples ++ tuples⟩ := by
  induction rs generalizing w with
  | nil =>
    constructor
    · intro h
      cases h
      exact ⟨[], [], rfl, rfl, by simp⟩
    · rintro ⟨rows, tuples, hrows, htuples, rfl⟩
      obtain rfl : rows = [] := by simpa using hrows.symm
      cases htuples
      simp [pure, Except.pure]
  | cons r rs ih =>
    rw [List.foldlM_cons, bind_eq_ok]
    constructor
    · rintro ⟨w₁, h₁, h⟩
      obtain ⟨row, rfl, h₁⟩ := bind_eq_ok.1 h₁
      obtain ⟨tuple, htuple, rfl⟩ := map_eq_ok.1 h₁
      obtain ⟨rows, tuples, rfl, htuples, rfl⟩ := ih.1 h
      refine ⟨row :: rows, tuple :: tuples, rfl, ?_, by simp⟩
      rw [List.mapM_cons]
      exact bind_eq_ok.2 ⟨tuple, htuple, bind_eq_ok.2 ⟨tuples, htuples, rfl⟩⟩
    · rintro ⟨rows, tuples, hrows, htuples, rfl⟩
      cases rows with
      | nil => cases hrows
      | cons row rows =>
        obtain ⟨rfl, rfl⟩ := List.cons.inj hrows
        rw [List.mapM_cons] at htuples
        obtain ⟨tuple, htuple, h⟩ := bind_eq_ok.1 htuples
        obtain ⟨tuples', htuples', h⟩ := bind_eq_ok.1 h
        cases h
        refine ⟨⟨w.table, w.tuples ++ [tuple]⟩, ?_, ih.2 ⟨rows, tuples', rfl, htuples', by simp⟩⟩
        exact bind_eq_ok.2 ⟨row, rfl, map_eq_ok.2 ⟨tuple, htuple, rfl⟩⟩

theorem stream_eq_ok {b : Batch} {stream : List UInt8} :
    b.stream = .ok stream ↔ ∃ (rows : List Row) (tuples : List (List UInt8)), b.rows = rows.map .ok
      ∧ rows.mapM b.table.encodeRow = .ok tuples
      ∧ stream = Copy.header ++ tuples.flatten ++ Copy.trailer := by
  unfold Batch.stream
  rw [bind_eq_ok]
  constructor
  · rintro ⟨w, hw, h⟩
    obtain ⟨rows, tuples, hrows, htuples, rfl⟩ := foldlM_write.1 hw
    cases h
    exact ⟨rows, tuples, hrows, htuples, rfl⟩
  · rintro ⟨rows, tuples, hrows, htuples, rfl⟩
    exact ⟨⟨b.table, tuples⟩, foldlM_write.2 ⟨rows, tuples, hrows, htuples, rfl⟩, rfl⟩

theorem readsBack_of_decodeStream {b : Batch} (ha : b.table.arity < 0x8000) {stream : List UInt8}
    (hs : b.stream = .ok stream) {read : List Row} :
    b.table.decodeStream stream = .ok read ↔ b.ReadsBack read := by
  obtain ⟨rows, tuples, hrows, htuples, rfl⟩ := stream_eq_ok.1 hs
  rw [← toOption_eq_some, Table.decodeStream_bytes ha htuples]
  constructor
  · exact fun h => ⟨rows, tuples, hrows, htuples, h⟩
  · rintro ⟨rows', _, hrows', _, h⟩
    have : rows' = rows := by
      rw [hrows] at hrows'
      exact (List.map_inj_right fun _ _ => Except.ok.inj).1 hrows'.symm
    rwa [this] at h

end Batch

namespace WriteTally

/-- Loads batches in order, up to the first that fails. -/
def writeEach (tally : WriteTally) : List Batch → Action WriteTally
  | [] => return tally
  | b :: rest => do
    let (_, tally) ← tally.write b
    writeEach tally rest

theorem writeAll_eq_writeEach (tally : WriteTally) (bs : List Batch) :
    ((writeAll tally bs).bind fun (r, tally) => .done (r.map fun _ => tally))
      = (writeEach tally bs).run := by
  induction bs generalizing tally with
  | nil => rfl
  | cons b bs ih =>
    show ((tally.write b).run.bind _).bind _ = (tally.write b).run.bind _
    rw [Script.bind_assoc]
    congr 1
    funext r
    rcases r with e | ⟨n, tally'⟩
    · rfl
    · exact ih tally'

/-- The tally with the rows of one more batch. -/
def counted (tally : WriteTally) (b : Batch) : WriteTally :=
  if b.rows.isEmpty then tally
  else ⟨tally.written.insert b.table.name (tally.written.getD b.table.name 0 + b.rows.length)⟩

theorem calm_write {tally : WriteTally} {b : Batch} (ha : b.table.arity < 0x8000)
    (ht : b.table.positionOf idColumn = .ok 0) {r : Nat × WriteTally} {w w' : World}
    (h : (tally.write b).run.calm w = (.ok r, w')) :
    ∃ read, b.ReadsBack read ∧ r = (b.rows.length, tally.counted b) ∧ w'.committed = w.committed
      ∧ Snapshot.Appended [(b.table.name, read)] w.working w'.working := by
  unfold write at h
  split at h
  · rename_i hb
    have hnil : b.rows = [] := List.isEmpty_iff.1 hb
    cases h
    refine ⟨[], ⟨[], [], hnil, rfl, rfl⟩, ?_, rfl, rfl, rfl, by simp, fun _ _ => rfl, id⟩
    rw [counted, if_pos hb, hnil, List.length_nil]
  · rename_i hb
    obtain ⟨_, _, h₁, h⟩ := Action.calm_bind_eq_ok.1 h
    cases h₁
    obtain ⟨stream, _, h₁, h⟩ := Action.calm_bind_eq_ok.1 h
    obtain ⟨hs, rfl⟩ := Prod.mk.inj h₁
    obtain ⟨n, w₁, h₁, h⟩ := Action.calm_bind_eq_ok.1 h
    cases h
    rw [Action.calm_request] at h₁
    obtain ⟨hn, rfl⟩ := Prod.mk.inj h₁
    rcases hd : b.table.decodeStream stream with e | read
    · rw [World.serve_bulkLoad_error hd] at hn
      cases hn
    · rw [World.serve_bulkLoad_ok hd] at hn ⊢
      have hread := (Batch.readsBack_of_decodeStream ha (mapError_eq_ok.1 hs)).1 hd
      have hn := mapError_eq_ok.1 hn
      refine ⟨read, hread, ?_, rfl, Snapshot.appended_appendRows ht hn⟩
      rw [counted, if_neg hb, ← hread.length_eq, Snapshot.length_appendRows hn]

/-- Batches that are written are read back and appended in order. -/
theorem calm_writeEach {bs : List Batch} (ha : ∀ b ∈ bs, b.table.arity < 0x8000)
    (ht : ∀ b ∈ bs, b.table.positionOf idColumn = .ok 0) {tally tally' : WriteTally} {w w' : World}
    (h : (writeEach tally bs).run.calm w = (.ok tally', w')) :
    ∃ reads, List.Forall₂ Batch.ReadsBack bs reads ∧ w'.committed = w.committed
      ∧ Snapshot.Appended ((bs.map (·.table.name)).zip reads) w.working w'.working := by
  induction bs generalizing tally w with
  | nil =>
    cases h
    exact ⟨[], .nil, rfl, .refl⟩
  | cons b bs ih =>
    obtain ⟨r, w₁, h₁, h⟩ := Action.calm_bind_eq_ok.1 h
    obtain ⟨read, hread, _, hc, happ⟩ :=
      calm_write (ha b List.mem_cons_self) (ht b List.mem_cons_self) h₁
    obtain ⟨reads, hreads, hc', happ'⟩ := ih (fun b hb => ha b (List.mem_cons_of_mem _ hb))
      (fun b hb => ht b (List.mem_cons_of_mem _ hb)) h
    exact ⟨read :: reads, .cons hread hreads, hc'.trans hc, happ.trans happ'⟩

theorem calm_write_of_readsBack (tally : WriteTally) {b : Batch} (ha : b.table.arity < 0x8000)
    (ht : b.table.positionOf idColumn = .ok 0) {read : List Row} (hb : b.ReadsBack read) {w : World}
    (hf : w.working.Fresh b.table.name read) : ∃ r w', (tally.write b).run.calm w = (.ok r, w') := by
  unfold write
  split
  · exact ⟨_, _, rfl⟩
  · obtain ⟨rows, tuples, hrows, htuples, _⟩ := id hb
    have hs : b.stream = .ok (Copy.header ++ tuples.flatten ++ Copy.trailer) :=
      Batch.stream_eq_ok.2 ⟨rows, tuples, hrows, htuples, rfl⟩
    have hd := (Batch.readsBack_of_decodeStream ha hs).2 hb
    have hn := Snapshot.appendRows_of_fresh ht hf
    have hc := World.serve_bulkLoad_ok (w := w) hd
    rw [hn] at hc
    rw [Action.calm_bind_of_ok (Action.calm_failIfCancelled _ _), Action.calm_bind,
      Action.calm_ofExcept, hs]
    simp only [Except.mapError]
    rw [Action.calm_bind, Action.calm_request, hc]
    exact ⟨_, _, rfl⟩

/-- Batches for different tables that can be read back, with new ids, are written. -/
theorem calm_writeEach_isOk {bs : List Batch} (ha : ∀ b ∈ bs, b.table.arity < 0x8000)
    (ht : ∀ b ∈ bs, b.table.positionOf idColumn = .ok 0) (hn : (bs.map (·.table.name)).Nodup)
    {w : World} (hb : ∀ b ∈ bs, ∃ read, b.ReadsBack read ∧ w.working.Fresh b.table.name read)
    (tally : WriteTally) : ∃ tally' w', (writeEach tally bs).run.calm w = (.ok tally', w') := by
  induction bs generalizing tally w with
  | nil => exact ⟨_, _, rfl⟩
  | cons b bs ih =>
    obtain ⟨read, hread, hf⟩ := hb b List.mem_cons_self
    have ha₁ := ha b List.mem_cons_self
    have ht₁ := ht b List.mem_cons_self
    obtain ⟨r, w₁, h₁⟩ := calm_write_of_readsBack tally ha₁ ht₁ hread hf
    obtain ⟨_, _, _, _, happ⟩ := calm_write ha₁ ht₁ h₁
    obtain ⟨hnb, hn⟩ := List.nodup_cons.1 hn
    have hb' : ∀ b' ∈ bs, ∃ read, b'.ReadsBack read ∧ w₁.working.Fresh b'.table.name read := by
      intro b' hb'
      obtain ⟨read', hread', ids, hids⟩ := hb b' (List.mem_cons_of_mem _ hb')
      refine ⟨read', hread', ids, ?_⟩
      rw [happ.untouched b'.table.name]
      · exact hids
      · intro e he e'
        rw [List.mem_singleton.1 he] at e'
        exact hnb (List.mem_map.2 ⟨b', hb', e'.symm⟩)
    obtain ⟨tally', w', h'⟩ := ih (fun b hb => ha b (List.mem_cons_of_mem _ hb))
      (fun b hb => ht b (List.mem_cons_of_mem _ hb)) hn hb' r.2
    exact ⟨tally', w', Action.calm_bind_eq_ok.2 ⟨r, w₁, h₁, h'⟩⟩

theorem calm_write_error {tally : WriteTally} {b : Batch} {e : InvocationError} {w w' : World}
    (h : (tally.write b).run.calm w = (.error e, w')) : ∃ cause, e = .store .write cause := by
  unfold write at h
  split at h
  · cases h
  · rw [Action.calm_bind_of_ok (Action.calm_failIfCancelled _ _), Action.calm_bind,
      Action.calm_ofExcept] at h
    rcases hs : b.stream with cause | stream
    · rw [hs] at h
      cases h
      exact ⟨cause, rfl⟩
    · rw [hs] at h
      simp only [Except.mapError] at h
      rw [Action.calm_bind, Action.calm_request] at h
      rcases hc : (w.serve (.bulkLoad b.table stream)).1 with cause | n
      · rw [hc] at h
        cases h
        exact ⟨cause, rfl⟩
      · rw [hc] at h
        cases h

theorem calm_writeEach_error {bs : List Batch} {tally : WriteTally} {e : InvocationError}
    {w w' : World} (h : (writeEach tally bs).run.calm w = (.error e, w')) :
    ∃ cause, e = .store .write cause := by
  induction bs generalizing tally w with
  | nil => cases h
  | cons b bs ih =>
    rw [writeEach, Action.calm_bind] at h
    rcases h₁ : (tally.write b).run.calm w with ⟨e' | r, w₁⟩
    · rw [h₁] at h
      cases h
      exact calm_write_error h₁
    · rw [h₁] at h
      exact ih h

/-! ## What is told of batches that were written -/

section Told

variable {tally tally' : WriteTally} {bs : List Batch} {w w' : World}

/-- The number of rows of each batch that has any. -/
def told (bs : List Batch) : List (String × Nat) :=
  (bs.filter (!·.rows.isEmpty)).map fun b => (b.table.name, b.rows.length)

theorem told_cons (b : Batch) (bs : List Batch) : told (b :: bs) = told [b] ++ told bs := by
  rw [told, told, told, ← List.map_append, ← List.filter_append, List.singleton_append]

theorem mem_told {name : String} {count : Nat} : (name, count) ∈ told bs
    ↔ ∃ b ∈ bs, 0 < count ∧ b.table.name = name ∧ b.rows.length = count := by
  rw [told, List.mem_map]
  constructor
  · rintro ⟨b, hb, he⟩
    obtain ⟨hb, hne⟩ := List.mem_filter.1 hb
    cases he
    exact ⟨b, hb, List.length_pos_iff.2 (by simpa using hne), rfl, rfl⟩
  · rintro ⟨b, hb, hpos, rfl, rfl⟩
    exact ⟨b, List.mem_filter.2 ⟨hb, by simpa using List.length_pos_iff.1 hpos⟩, rfl⟩

theorem nodup_told (hn : (bs.map (·.table.name)).Nodup) : ((told bs).map (·.1)).Nodup := by
  rw [told, List.map_map]
  exact hn.sublist (List.filter_sublist.map _)

theorem sum_told (bs : List Batch) : ((told bs).map (·.2)).sum = (bs.map (·.rows.length)).sum := by
  induction bs with
  | nil => rfl
  | cons b bs ih =>
    have hb : ((told [b]).map (·.2)).sum = b.rows.length := by
      rcases hrows : b.rows with _ | ⟨r, rs⟩ <;> simp [told, hrows]
    rw [told_cons, List.map_append, List.sum_append, ih, hb, List.map_cons, List.sum_cons]

theorem entries_counted {b : Batch} (hnew : b.table.name ∉ tally.written.keys) :
    (tally.counted b).written.entries = tally.written.entries ++ told [b] := by
  have hnone := Dictionary.get?_eq_none_iff.2 hnew
  unfold counted
  split
  · rename_i hb
    simp [told, hb]
  · rename_i hb
    rw [Dictionary.entries_insert_of_none hnone, Dictionary.getD, hnone, Option.getD_none, Nat.zero_add]
    simp [told, hb]

/-- Batches for different tables are told of in order, those without rows not at all. -/
theorem written_writeEach (ha : ∀ b ∈ bs, b.table.arity < 0x8000)
    (ht : ∀ b ∈ bs, b.table.positionOf idColumn = .ok 0) (hn : (bs.map (·.table.name)).Nodup)
    (hnew : ∀ b ∈ bs, b.table.name ∉ tally.written.keys)
    (h : (writeEach tally bs).run.calm w = (.ok tally', w')) :
    tally'.written.entries = tally.written.entries ++ told bs := by
  induction bs generalizing tally w with
  | nil =>
    cases h
    exact (List.append_nil _).symm
  | cons b bs ih =>
    obtain ⟨r, w₁, h₁, h⟩ := Action.calm_bind_eq_ok.1 h
    obtain ⟨_, _, rfl, _⟩ := calm_write (ha b List.mem_cons_self) (ht b List.mem_cons_self) h₁
    obtain ⟨hb, hn⟩ := List.nodup_cons.1 hn
    have hcounted := entries_counted (hnew b List.mem_cons_self)
    have hnew' : ∀ b' ∈ bs, b'.table.name ∉ (tally.counted b).written.keys := by
      intro b' hb'
      rw [Dictionary.keys, hcounted, List.map_append, List.mem_append, not_or]
      refine ⟨hnew b' (List.mem_cons_of_mem _ hb'), fun hm => ?_⟩
      obtain ⟨⟨name, count⟩, he, hname⟩ := List.mem_map.1 hm
      obtain ⟨b'', hb'', _, rfl, _⟩ := mem_told.1 he
      rw [List.mem_singleton.1 hb''] at hname
      exact hb (List.mem_map.2 ⟨b', hb', hname.symm⟩)
    rw [ih (fun b hb => ha b (List.mem_cons_of_mem _ hb))
      (fun b hb => ht b (List.mem_cons_of_mem _ hb)) hn hnew' h, hcounted, told_cons b bs,
      List.append_assoc]

end Told

end WriteTally

end LedgerHistory
