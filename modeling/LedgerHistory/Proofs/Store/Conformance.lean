import LedgerHistory.Proofs.Store.Grammar
import LedgerHistory.Proofs.Store.Offering

/-!
# What rows of a stream conform to

A row that is read has one field for each column of its table, empty or of the column's type
(`Table.holds_of_decodeStream`). Whether the column may be empty is not asked in reading, so the table
takes the row in writing when no required column is empty; only a document may be longer in its
canonical text than in the one that was read (`Table.accepts_iff_of_decodeStream`).
-/

namespace LedgerHistory

/-- Whether a field is empty or of the type of its column. -/
def Column.Holds (c : Column) (v : ColumnValue) : Prop := v = .null ∨ v.hasType c.type

/-- Whether a row has one field for each column, empty or of the column's type. -/
def Table.Holds (t : Table) (row : Row) : Prop := List.Forall₂ Column.Holds t.columns row

/-- Whether a row has a value in every column that may not be empty. -/
def Table.Filled (t : Table) (row : Row) : Prop :=
  List.Forall₂ (fun c v => v = .null → c.nullable) t.columns row

/-- Whether the canonical text of each document of a row is short enough to be written. -/
def Row.HasShortDocuments (row : Row) : Prop :=
  ∀ d, .jsonb d ∈ row → (Utf8.encode d.value.compact).length < Copy.maxLength

namespace Copy

variable {type : ColumnType} {bytes : List UInt8} {v : ColumnValue}

theorem hasType_of_isPayload (h : IsPayload type bytes v) : v.hasType type := by
  cases h <;> rfl

/-- A value that is no document is written no longer than it was read. -/
theorem length_payload?_le (h : IsPayload type bytes v) (hv : ∀ d, v ≠ .jsonb d) {p : List UInt8}
    (hp : payload? v = some p) : p.length ≤ bytes.length := by
  cases h with
  | jsonb => exact absurd rfl (hv _)
  | noDimension flag rest =>
    cases hp
    rw [List.length_append, length_arrayHeader]
    exact Nat.le_add_right _ _
  | @oneDimension flag lowest count ns hcount =>
    cases hp
    cases ns with
    | nil =>
      rw [List.append_assoc, List.append_assoc, List.length_append, length_arrayHeader]
      exact Nat.le_add_right _ _
    | cons n ns =>
      simp only [arrayPayload, arrayHeader, elementBytes, List.length_append,
        Bytes.length_ofInt32, Nat.le_refl]
  | _ =>
    cases hp
    simp

theorem length_le_of_toInt_eq {length : Int32} {n : Nat} (h : length.toInt = n) : n ≤ maxLength := by
  have hlt : length.toInt < 2 ^ 31 := length.toInt_lt
  rw [maxLength]
  omega

end Copy

theorem Column.holds_of_isField {c : Column} {bytes : List UInt8} {v : ColumnValue}
    (h : Copy.IsField c.type bytes v) : c.Holds v := by
  cases h with
  | null => exact .inl rfl
  | value _ hv => exact .inr (Copy.hasType_of_isPayload hv)

/-- A field that was read is accepted when it need not be filled and is not too long a document. -/
theorem Column.accepts_of_isField {c : Column} {bytes : List UInt8} {v : ColumnValue}
    (h : Copy.IsField c.type bytes v) : c.Accepts v ↔ (v = .null → c.nullable)
      ∧ ∀ d, v = .jsonb d → (Utf8.encode d.value.compact).length < Copy.maxLength := by
  constructor
  · intro ha
    refine ⟨ha.nullable, ?_⟩
    rintro d rfl
    exact Nat.lt_of_succ_le (ha.short _ rfl)
  · rintro ⟨hnull, hdoc⟩
    refine ⟨hnull, fun hv => ?_, fun p hp => ?_⟩
    · exact (Column.holds_of_isField h).resolve_left hv
    · cases h with
      | null => cases hp
      | @value length payload _ hlen hv =>
        by_cases hd : ∃ d, v = .jsonb d
        · obtain ⟨d, rfl⟩ := hd
          cases hp
          exact Nat.succ_le_of_lt (hdoc d rfl)
        · exact Nat.le_trans (Copy.length_payload?_le hv (fun d he => hd ⟨d, he⟩) hp)
            (Copy.length_le_of_toInt_eq hlen)

section Rows

variable {columns : List Column} {bytes : List UInt8} {row : Row}

theorem Copy.IsFields.holds (h : IsFields columns bytes row) :
    List.Forall₂ Column.Holds columns row := by
  induction h with
  | nil => exact .nil
  | cons hv _ ih => exact .cons (Column.holds_of_isField hv) ih

theorem Copy.IsFields.accepts_iff (h : IsFields columns bytes row) :
    List.Forall₂ Column.Accepts columns row
      ↔ List.Forall₂ (fun c v => v = .null → c.nullable) columns row ∧ row.HasShortDocuments := by
  unfold Row.HasShortDocuments
  induction h with
  | nil => simp
  | cons hv _ ih =>
    rw [List.forall₂_cons, List.forall₂_cons, Column.accepts_of_isField hv, ih]
    simp only [List.mem_cons]
    constructor
    · rintro ⟨⟨hnull, hdoc⟩, hnulls, hdocs⟩
      refine ⟨⟨hnull, hnulls⟩, fun d hd => ?_⟩
      rcases hd with hd | hd
      · exact hdoc d hd.symm
      · exact hdocs d hd
    · rintro ⟨⟨hnull, hnulls⟩, hdocs⟩
      exact ⟨⟨hnull, fun d hd => hdocs d (.inl hd.symm)⟩, hnulls, fun d hd => hdocs d (.inr hd)⟩

variable {t : Table} {stream : List UInt8} {rows : List Row}

theorem Table.isFields_of_decodeStream (h : t.decodeStream stream = .ok rows) (hrow : row ∈ rows) :
    ∃ bytes, Copy.IsFields t.columns bytes row := by
  obtain ⟨-, htuples⟩ := Copy.decode_eq_ok.1 (mapError_eq_ok.1 h)
  obtain ⟨_, -, -, hfields⟩ := exists_of_forall₂ htuples hrow
  exact ⟨_, hfields⟩

theorem Table.holds_of_decodeStream (h : t.decodeStream stream = .ok rows) (hrow : row ∈ rows) :
    t.Holds row :=
  let ⟨_, hfields⟩ := Table.isFields_of_decodeStream h hrow
  hfields.holds

theorem Table.accepts_iff_of_decodeStream (h : t.decodeStream stream = .ok rows) (hrow : row ∈ rows) :
    t.Accepts row ↔ t.Filled row ∧ row.HasShortDocuments :=
  let ⟨_, hfields⟩ := Table.isFields_of_decodeStream h hrow
  hfields.accepts_iff

end Rows

end LedgerHistory
