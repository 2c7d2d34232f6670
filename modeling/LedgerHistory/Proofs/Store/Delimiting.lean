import LedgerHistory.Proofs.Store.Grammar

/-!
# Where streams end

A stream tells its own end. Behind a stream of the grammar anything may follow and it is read the same
(`Copy.reads_stream`), so no stream is the beginning of another (`Copy.isStream_append_inj`). What is
cut off is missed, and what is added is found (`Table.decodeStream_delimits`).
-/

namespace LedgerHistory

namespace Copy

variable {columns : List Column} {stream : List UInt8} {rows : List Row}

/-- Streams are told apart from what follows them. -/
theorem isStream_append_inj {stream' rest rest' : List UInt8} {rows' : List Row}
    (h : IsStream columns stream rows) (h' : IsStream columns stream' rows')
    (he : stream ++ rest = stream' ++ rest') : stream = stream' ∧ rows = rows' ∧ rest = rest' := by
  have hread : decodeAll columns ⟨0, stream ++ rest⟩ = .ok (rows, ⟨0 + stream.length, rest⟩) :=
    (reads_stream _ columns).complete (Nat.lt_succ_self _) h 0
  have hread' : decodeAll columns ⟨0, stream' ++ rest'⟩ = .ok (rows', ⟨0 + stream'.length, rest'⟩) :=
    (reads_stream _ columns).complete (Nat.lt_succ_self _) h' 0
  rw [he, hread'] at hread
  simp only [Except.ok.injEq, Prod.mk.injEq, Cursor.mk.injEq] at hread
  obtain ⟨rfl, -, rfl⟩ := hread
  exact ⟨List.append_cancel_right he, rfl, rfl⟩

/-- A stream whose end is missing is read up to there and no further. -/
theorem decode_cut {front back : List UInt8} (h : IsStream columns (front ++ back) rows)
    (hback : back ≠ []) : ∃ offset, decode columns front = .error ⟨offset, .unexpectedEnd⟩ := by
  obtain ⟨offset, hcut⟩ := (reads_stream _ columns).cut (Nat.lt_succ_self _) h hback 0
  exact ⟨offset, by rw [decode_eq, hcut]; rfl⟩

end Copy

/-- A stream that is accepted is refused, always in the name of the table, when any bytes are cut off
its end, where its end is missed, and when any are added, where they begin. -/
theorem Table.decodeStream_delimits {t : Table} {stream : List UInt8} {rows : List Row}
    (h : t.decodeStream stream = .ok rows) :
    (∀ front back, stream = front ++ back → back ≠ [] → ∃ offset ≤ front.length,
      t.decodeStream front = .error (.corruptStream t.name offset "unexpected end of stream"))
    ∧ ∀ more, more ≠ [] → t.decodeStream (stream ++ more)
      = .error (.corruptStream t.name stream.length "trailing bytes after trailer") := by
  have hstream : Copy.IsStream t.columns stream rows := Copy.decode_eq_ok.1 (mapError_eq_ok.1 h)
  constructor
  · rintro front back rfl hback
    obtain ⟨offset, hcut⟩ := Copy.decode_cut hstream hback
    refine ⟨offset, Copy.offset_le_of_decode hcut, ?_⟩
    rw [Table.decodeStream, hcut]
    rfl
  · intro more hmore
    rw [Table.decodeStream, Copy.decode_append hstream, if_pos hmore]
    rfl

/-- The stream of one row of a table with one column. -/
def Copy.sampleStream : List UInt8 := Copy.header ++ [0, 1, 0, 0, 0, 1, 65] ++ Copy.trailer

theorem Table.decodeStream_delimits_sample :
    (Table.mk "notes" [.required "note" .text]).decodeStream Copy.sampleStream = .ok [[.text "A"]]
    ∧ (∀ front back, Copy.sampleStream = front ++ back → back ≠ [] → ∃ offset ≤ front.length,
      (Table.mk "notes" [.required "note" .text]).decodeStream front
        = .error (.corruptStream "notes" offset "unexpected end of stream"))
    ∧ ∀ more, more ≠ [] →
      (Table.mk "notes" [.required "note" .text]).decodeStream (Copy.sampleStream ++ more)
        = .error (.corruptStream "notes" 28 "trailing bytes after trailer") := by
  have h : (Table.mk "notes" [.required "note" .text]).decodeStream Copy.sampleStream
      = .ok [[.text "A"]] := by decide
  exact ⟨h, Table.decodeStream_delimits h⟩

end LedgerHistory
