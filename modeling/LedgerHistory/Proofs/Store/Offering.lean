import LedgerHistory.Proofs.Store.Copy

/-!
# Rows offered to a stream

A stream takes a row when it has one value for each column that the column accepts
(`Table.encodeRow_isOk_iff`), and what it refuses leaves it as it was. So the stream that is left of
rows offered in turn holds those that the table accepts (`BulkStream.offerAll_eq`) and is read back
as these (`BulkStream.offerAll_roundTrip`).
-/

namespace LedgerHistory

/-- Whether a field is read back as it was written: a document has no double and nests no deeper than
a text may. -/
def ColumnValue.IsFaithful : ColumnValue → Prop
  | .jsonb d => d.value.isFloatFree ∧ d.value.depth < 128
  | _ => True

theorem ColumnValue.reread?_of_faithful {v : ColumnValue} (h : v.IsFaithful) : v.reread? = some v := by
  cases v with
  | jsonb d =>
    have hd : d.value.depth ≤ Json.maxDepth := Nat.le_of_lt_succ h.2
    simp [reread?, Copy.documentOf, Utf8.decode_encode, Json.ofString_compact h.1, hd,
      Document.ofJson_value, Except.toOption]
  | _ => rfl

theorem Row.reread?_of_faithful {row : Row} (h : ∀ v ∈ row, v.IsFaithful) :
    row.reread? = some row := by
  rw [reread?, mapM_option_eq_some, List.forall₂_same]
  exact fun v hv => ColumnValue.reread?_of_faithful (h v hv)

/-! ## What columns and tables accept -/

/-- Whether a value may stand in a column: an empty field where the column may be empty, any other if
it is of the column's type, with a payload whose length can be written. -/
structure Column.Accepts (c : Column) (v : ColumnValue) : Prop where
  nullable (h : v = .null) : c.nullable
  typed (h : v ≠ .null) : v.hasType c.type
  short : ∀ p, Copy.payload? v = some p → p.length ≤ Copy.maxLength

/-- Whether a row has one value for each column, which the column accepts. -/
def Table.Accepts (t : Table) (row : Row) : Prop := List.Forall₂ Column.Accepts t.columns row

instance (c : Column) (v : ColumnValue) : Decidable (c.Accepts v) :=
  decidable_of_iff ((v = .null → c.nullable) ∧ (v ≠ .null → v.hasType c.type)
      ∧ ∀ p ∈ Copy.payload? v, p.length ≤ Copy.maxLength)
    ⟨fun h => ⟨h.1, h.2.1, h.2.2⟩, fun h => ⟨h.nullable, h.typed, h.short⟩⟩

instance (t : Table) (row : Row) : Decidable (t.Accepts row) :=
  inferInstanceAs (Decidable (List.Forall₂ Column.Accepts t.columns row))

section Accepts

variable {c : Column} {v : ColumnValue} {t : Table} {row : Row}

theorem ColumnValue.isNull_iff : v.isNull ↔ v = .null := by cases v <;> simp [isNull]

theorem Copy.checkField_eq_ok : checkField c v = .ok ()
    ↔ (v = .null → c.nullable) ∧ (v ≠ .null → v.hasType c.type) := by
  unfold checkField
  by_cases hn : v = .null
  · rw [if_pos (ColumnValue.isNull_iff.2 hn)]
    cases hc : c.nullable <;> simp [hn]
  · rw [if_neg (mt ColumnValue.isNull_iff.1 hn)]
    cases ht : v.hasType c.type <;> simp [hn]

theorem Copy.fieldBytes_isOk : (∃ bytes, fieldBytes v = .ok bytes)
    ↔ ∀ p, payload? v = some p → p.length ≤ maxLength := by
  unfold fieldBytes
  rcases payload? v with _ | p
  · simp
  · by_cases h : p.length ≤ maxLength <;> simp [h]

/-- The fields of a row are written when each column accepts its field. -/
theorem Table.accepts_iff {columns : List Column} (hlen : row.length = columns.length) :
    List.Forall₂ Column.Accepts columns row
      ↔ t.checkFields columns row = .ok () ∧ ∃ bytes, t.encodeFields columns row = .ok bytes := by
  induction columns generalizing row with
  | nil =>
    obtain rfl := List.length_eq_zero_iff.1 hlen
    exact ⟨fun _ => ⟨rfl, _, rfl⟩, fun _ => .nil⟩
  | cons c columns ih =>
    match row with
    | v :: row =>
      have hlen : row.length = columns.length := by simpa using hlen
      rw [List.forall₂_cons, ih hlen, checkFields, encodeFields, bind_eq_ok]
      constructor
      · rintro ⟨hv, hcheck, bytes, hbytes⟩
        obtain ⟨field, hfield⟩ := Copy.fieldBytes_isOk.2 hv.short
        refine ⟨⟨(), mapError_eq_ok.2 (Copy.checkField_eq_ok.2 ⟨hv.nullable, hv.typed⟩), hcheck⟩,
          field ++ bytes, bind_eq_ok.2 ⟨field, mapError_eq_ok.2 hfield, ?_⟩⟩
        exact bind_eq_ok.2 ⟨bytes, hbytes, rfl⟩
      · rintro ⟨⟨_, hv, hcheck⟩, bytes, h⟩
        obtain ⟨field, hfield, h⟩ := bind_eq_ok.1 h
        obtain ⟨fields, hfields, _⟩ := bind_eq_ok.1 h
        obtain ⟨hnull, htype⟩ := Copy.checkField_eq_ok.1 (mapError_eq_ok.1 hv)
        exact ⟨⟨hnull, htype, Copy.fieldBytes_isOk.1 ⟨field, mapError_eq_ok.1 hfield⟩⟩, hcheck,
          fields, hfields⟩

/-- A row is written when the table accepts it. -/
theorem Table.encodeRow_isOk_iff : (∃ tuple, t.encodeRow row = .ok tuple) ↔ t.Accepts row := by
  constructor
  · rintro ⟨tuple, h⟩
    obtain ⟨hlen, hcheck, fields, hfields, _⟩ := Copy.encodeRow_eq_ok h
    exact (accepts_iff hlen).2 ⟨hcheck, fields, hfields⟩
  · intro h
    have hlen : row.length = t.arity := h.length_eq.symm
    obtain ⟨hcheck, fields, hfields⟩ := (accepts_iff (t := t) hlen).1 h
    refine ⟨Bytes.ofInt16 (Int16.ofNat t.arity) ++ fields, ?_⟩
    rw [encodeRow, if_neg (by simpa using hlen)]
    exact bind_eq_ok.2 ⟨(), hcheck, bind_eq_ok.2 ⟨fields, hfields, rfl⟩⟩

end Accepts

/-! ## Rows in turn -/

namespace BulkStream

variable {w : BulkStream} {row : Row} {rows : List Row}

theorem write_of_accepts (h : w.table.Accepts row) :
    ∃ tuple, w.table.encodeRow row = .ok tuple
      ∧ w.write row = .ok { w with tuples := w.tuples ++ [tuple] } := by
  obtain ⟨tuple, htuple⟩ := Table.encodeRow_isOk_iff.2 h
  exact ⟨tuple, htuple, by rw [write, htuple]; rfl⟩

theorem write_of_not_accepts (h : ¬w.table.Accepts row) : ∃ e, w.write row = .error e := by
  rcases he : w.table.encodeRow row with e | tuple
  · exact ⟨e, by rw [write, he]; rfl⟩
  · exact absurd (Table.encodeRow_isOk_iff.1 ⟨tuple, he⟩) h

/-- A stream takes the rows that its table accepts. -/
theorem write_isOk_iff : (∃ w', w.write row = .ok w') ↔ w.table.Accepts row := by
  rw [← Table.encodeRow_isOk_iff]
  constructor
  · rintro ⟨w', h⟩
    obtain ⟨tuple, htuple, -⟩ := map_eq_ok.1 h
    exact ⟨tuple, htuple⟩
  · rintro ⟨tuple, htuple⟩
    exact ⟨_, map_eq_ok.2 ⟨tuple, htuple, rfl⟩⟩

/-- A stream that rows were offered to has those that its table accepts behind what it had, and
tells of each row whether it does. -/
theorem offerAll_eq (w : BulkStream) (rows : List Row) : ∃ tuples,
    (rows.filter (w.table.Accepts ·)).mapM w.table.encodeRow = .ok tuples
      ∧ (w.offerAll rows).1 = { w with tuples := w.tuples ++ tuples }
      ∧ List.Forall₂ (fun row r => r = .ok () ↔ w.table.Accepts row) rows (w.offerAll rows).2 := by
  induction rows generalizing w with
  | nil => exact ⟨[], rfl, by simp [offerAll], .nil⟩
  | cons row rows ih =>
    by_cases hrow : w.table.Accepts row
    · obtain ⟨tuple, htuple, hwrite⟩ := write_of_accepts hrow
      obtain ⟨tuples, htuples, hw, hresults⟩ := ih { w with tuples := w.tuples ++ [tuple] }
      refine ⟨tuple :: tuples, ?_, ?_, ?_⟩
      · rw [List.filter_cons_of_pos (by simpa using hrow), List.mapM_cons, htuple]
        exact bind_eq_ok.2 ⟨tuple, rfl, bind_eq_ok.2 ⟨tuples, htuples, rfl⟩⟩
      · rw [offerAll, hwrite]
        simpa using hw
      · rw [offerAll, hwrite]
        exact .cons (by simpa using hrow) hresults
    · obtain ⟨e, hwrite⟩ := write_of_not_accepts hrow
      obtain ⟨tuples, htuples, hw, hresults⟩ := ih w
      refine ⟨tuples, ?_, ?_, ?_⟩
      · rwa [List.filter_cons_of_neg (by simpa using hrow)]
      · rw [offerAll, hwrite]
        exact hw
      · rw [offerAll, hwrite]
        exact .cons (by simpa using hrow) hresults

/-- A row that is refused leaves the stream as it is, whatever was offered before it. -/
theorem offerAll_concat_of_not_accepts (w : BulkStream) (rows : List Row)
    (h : ¬w.table.Accepts row) : (w.offerAll (rows ++ [row])).1 = (w.offerAll rows).1 := by
  obtain ⟨tuples, htuples, hw, _⟩ := w.offerAll_eq rows
  obtain ⟨tuples', htuples', hw', _⟩ := w.offerAll_eq (rows ++ [row])
  rw [List.filter_append, List.filter_cons_of_neg (by simpa using h), List.filter_nil,
    List.append_nil, htuples] at htuples'
  rw [hw, hw', Except.ok.inj htuples']

/-- The finished stream is read back as the rows that the table accepts. -/
theorem decodeStream_offerAll {t : Table} (ha : t.arity ≤ 32767)
    (hf : ∀ row ∈ rows, ∀ v ∈ row, v.IsFaithful) :
    t.decodeStream ((new t).offerAll rows).1.bytes = .ok (rows.filter (t.Accepts ·)) := by
  obtain ⟨tuples, htuples, hw, _⟩ := (new t).offerAll_eq rows
  have hread : (rows.filter (t.Accepts ·)).mapM Row.reread? = some (rows.filter (t.Accepts ·)) := by
    rw [mapM_option_eq_some, List.forall₂_same]
    exact fun row hrow => Row.reread?_of_faithful (hf row (List.mem_of_mem_filter hrow))
  rw [hw, ← toOption_eq_some, ← hread]
  exact Table.decodeStream_bytes (Nat.lt_succ_of_le ha) htuples

/-- Of rows offered in turn a stream takes those that its table accepts. The others leave bytes and
row count as they are, and the finished stream is read back as the rows taken, so streams that took
different rows differ. -/
theorem offerAll_roundTrip {t : Table} (ha : t.arity ≤ 32767) {rows : List Row}
    (hf : ∀ row ∈ rows, ∀ v ∈ row, v.IsFaithful) :
    List.Forall₂ (fun row r => r = .ok () ↔ t.Accepts row) rows ((new t).offerAll rows).2
      ∧ (∀ before row, before ++ [row] <+: rows → ¬t.Accepts row →
        ((new t).offerAll (before ++ [row])).1.bytes = ((new t).offerAll before).1.bytes
          ∧ ((new t).offerAll (before ++ [row])).1.rowCount = ((new t).offerAll before).1.rowCount)
      ∧ ((new t).offerAll rows).1.rowCount = (rows.filter (t.Accepts ·)).length
      ∧ t.decodeStream ((new t).offerAll rows).1.bytes = .ok (rows.filter (t.Accepts ·))
      ∧ ∀ rows', (∀ row ∈ rows', ∀ v ∈ row, v.IsFaithful) →
        rows'.filter (t.Accepts ·) ≠ rows.filter (t.Accepts ·) →
        ((new t).offerAll rows').1.bytes ≠ ((new t).offerAll rows).1.bytes := by
  obtain ⟨tuples, htuples, hw, hresults⟩ := (new t).offerAll_eq rows
  refine ⟨hresults, fun before row _ hrow => ?_, ?_, decodeStream_offerAll ha hf,
    fun rows' hf' hne he => hne ?_⟩
  · rw [offerAll_concat_of_not_accepts (new t) before hrow]
    exact ⟨rfl, rfl⟩
  · rw [hw]
    exact (mapM_eq_ok.1 htuples).length_eq.symm
  · have hread := decodeStream_offerAll ha hf'
    rw [he, decodeStream_offerAll ha hf] at hread
    exact (Except.ok.inj hread).symm

/-- A table of two columns. -/
def sampleTable : Table := ⟨"sample", [.required "id" .int8, .optional "note" .jsonb]⟩

/-- A row that the table accepts, one without an id, and another that it accepts. -/
def sampleRows : List Row :=
  [[.int8 1, .jsonb (.ofJson (.array [.null]))], [.null, .null], [.int8 2, .null]]

theorem offerAll_roundTrip_sample : sampleTable.arity ≤ 32767
    ∧ (∀ row ∈ sampleRows, ∀ v ∈ row, v.IsFaithful)
    ∧ List.Forall₂ (fun row r => r = .ok () ↔ sampleTable.Accepts row) sampleRows
      ((new sampleTable).offerAll sampleRows).2
    ∧ ((new sampleTable).offerAll sampleRows).1.rowCount = 2
    ∧ sampleTable.decodeStream ((new sampleTable).offerAll sampleRows).1.bytes
      = .ok [[.int8 1, .jsonb (.ofJson (.array [.null]))], [.int8 2, .null]] := by
  have htaken : sampleRows.filter (sampleTable.Accepts ·)
      = [[.int8 1, .jsonb (.ofJson (.array [.null]))], [.int8 2, .null]] := by decide
  have hf : ∀ row ∈ sampleRows, ∀ v ∈ row, v.IsFaithful := by
    intro row hrow v hv
    simp only [sampleRows, List.mem_cons, List.not_mem_nil, or_false] at hrow
    rcases hrow with rfl | rfl | rfl <;> simp only [List.mem_cons, List.not_mem_nil, or_false] at hv
    · rcases hv with rfl | rfl
      · trivial
      · exact ⟨rfl, by decide⟩
    · rcases hv with rfl | rfl <;> trivial
    · rcases hv with rfl | rfl <;> trivial
  obtain ⟨hresults, _, hcount, hread, _⟩ := offerAll_roundTrip (t := sampleTable) (by decide) hf
  rw [htaken] at hcount hread
  exact ⟨by decide, hf, hresults, hcount, hread⟩

end BulkStream

end LedgerHistory
