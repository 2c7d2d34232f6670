import LedgerHistory.Proofs.Recording.Making

/-!
# Rows that can be stored

Whether a row can be stored does not depend on the integers in it (`Table.Storable.congr`). A batch
is read back if and only if all its rows can be stored, and then it is read back with its documents
read anew (`Batch.readsBack_iff`), which for the rows of a domain means their changes
(`ListKind.reread_encodeEntry`).
-/

namespace LedgerHistory

/-! ## Rows -/

/-- The row that a row is read back as. -/
def Row.reread (row : Row) : Row := row.reread?.getD row

/-- Whether a row can be written to a table and read back. -/
def Table.Storable (t : Table) (row : Row) : Prop :=
  (∃ tuple, t.encodeRow row = .ok tuple) ∧ ∃ read, row.reread? = some read

/-- Whether values differ in nothing but integers. -/
inductive ColumnValue.SameShape : ColumnValue → ColumnValue → Prop
  | refl (v : ColumnValue) : SameShape v v
  | int8 (m n : Int64) : SameShape (.int8 m) (.int8 n)
  | int8Array {ms ns : List Int64} (h : ms.length = ns.length) :
    SameShape (.int8Array ms) (.int8Array ns)

namespace ColumnValue.SameShape

variable {v v' : ColumnValue}

theorem isSome_reread? (h : v.SameShape v') : v.reread?.isSome = v'.reread?.isSome := by
  cases h <;> rfl

theorem checkField_eq (h : v.SameShape v') (c : Column) :
    Copy.checkField c v = Copy.checkField c v' := by
  cases h with
  | refl => rfl
  | int8 m n => cases hc : c.type <;> simp [Copy.checkField, hc, isNull, hasType, typeName]
  | int8Array h => cases hc : c.type <;> simp [Copy.checkField, hc, isNull, hasType, typeName]

theorem length_arrayPayload {ms ns : List Int64} (h : ms.length = ns.length) :
    (Copy.arrayPayload ms).length = (Copy.arrayPayload ns).length := by
  cases ms with
  | nil => rw [List.length_eq_zero_iff.1 h.symm]
  | cons m ms =>
    cases ns with
    | nil => cases h
    | cons n ns => rw [Copy.length_arrayPayload, Copy.length_arrayPayload, h]

theorem fieldBytes (h : v.SameShape v') {bytes : List UInt8}
    (hv : Copy.fieldBytes v = .ok bytes) : ∃ bytes', Copy.fieldBytes v' = .ok bytes' := by
  cases h with
  | refl => exact ⟨_, hv⟩
  | int8 m n => exact ⟨_, rfl⟩
  | @int8Array ms ns h =>
    have hlen := length_arrayPayload h
    simp only [Copy.fieldBytes, Copy.payload?] at hv ⊢
    rw [← hlen]
    split at hv
    · rename_i hle
      exact ⟨_, if_pos hle⟩
    · cases hv

end ColumnValue.SameShape

namespace Table

variable {t : Table} {row row' : Row}

theorem checkFields_congr (h : List.Forall₂ ColumnValue.SameShape row row') {cs : List Column}
    (hc : t.checkFields cs row = .ok ()) : t.checkFields cs row' = .ok () := by
  induction h generalizing cs with
  | nil => exact hc
  | @cons v v' row row' hv _ ih =>
    cases cs with
    | nil => rfl
    | cons c cs =>
      obtain ⟨_, hfield, hrest⟩ := bind_eq_ok.1 hc
      exact bind_eq_ok.2 ⟨(), hv.checkField_eq c ▸ hfield, ih hrest⟩

theorem encodeFields_congr (h : List.Forall₂ ColumnValue.SameShape row row') {cs : List Column}
    {bytes : List UInt8} (hb : t.encodeFields cs row = .ok bytes) :
    ∃ bytes', t.encodeFields cs row' = .ok bytes' := by
  induction h generalizing cs bytes with
  | nil => exact ⟨bytes, hb⟩
  | @cons v v' row row' hv _ ih =>
    cases cs with
    | nil => exact ⟨[], rfl⟩
    | cons c cs =>
      obtain ⟨field, hfield, hb⟩ := bind_eq_ok.1 hb
      obtain ⟨fields, hfields, _⟩ := bind_eq_ok.1 hb
      obtain ⟨field', hfield'⟩ := hv.fieldBytes (mapError_eq_ok.1 hfield)
      obtain ⟨fields', hfields'⟩ := ih hfields
      exact ⟨_, bind_eq_ok.2 ⟨field', mapError_eq_ok.2 hfield',
        bind_eq_ok.2 ⟨fields', hfields', rfl⟩⟩⟩

/-- Rows that differ in nothing but integers can be stored alike. -/
theorem Storable.congr (h : List.Forall₂ ColumnValue.SameShape row row') (hs : t.Storable row) :
    t.Storable row' := by
  obtain ⟨⟨tuple, htuple⟩, read, hread⟩ := hs
  constructor
  · obtain ⟨hlen, hcheck, fields, hfields, _⟩ := Copy.encodeRow_eq_ok htuple
    obtain ⟨fields', hfields'⟩ := encodeFields_congr h hfields
    have hlen' : ¬ row'.length ≠ t.arity := by
      rw [not_not, ← h.length_eq, hlen]
    unfold encodeRow
    rw [if_neg hlen']
    exact ⟨_, bind_eq_ok.2 ⟨(), checkFields_congr h hcheck, bind_eq_ok.2 ⟨fields', hfields', rfl⟩⟩⟩
  · clear htuple
    induction h generalizing read with
    | nil => exact ⟨[], rfl⟩
    | @cons v v' row row' hv _ ih =>
      rw [Row.reread?_cons] at hread ⊢
      obtain ⟨u, hu, hrest⟩ := Option.bind_eq_some_iff.1 hread
      obtain ⟨rest, hrest, _⟩ := Option.map_eq_some_iff.1 hrest
      obtain ⟨read', hread'⟩ := ih rest hrest
      obtain ⟨u', hu'⟩ := Option.isSome_iff_exists.1
        (hv.isSome_reread? ▸ Option.isSome_iff_exists.2 ⟨u, hu⟩)
      rw [hu', hread']
      exact ⟨_, rfl⟩

end Table

/-! ## Batches -/

namespace Batch

/-- Whether a batch has rows that can all be stored. -/
def Storable (b : Batch) : Prop :=
  ∃ rows : List Row, b.rows = rows.map .ok ∧ ∀ row ∈ rows, b.table.Storable row

/-- The rows that a batch is read back as. -/
def reread (b : Batch) : List Row := b.written.map Row.reread

theorem storable_ofRows {t : Table} {rows : List Row} :
    (ofRows t rows).Storable ↔ ∀ row ∈ rows, t.Storable row := by
  constructor
  · rintro ⟨rows', hrows, h⟩
    have hw := written_ofRows t rows
    have : (ofRows t rows).written = rows' := by
      simp [written, hrows, List.filterMap_map, Function.comp_def, Except.toOption]
    rw [← hw, this]
    exact h
  · exact fun h => ⟨rows, rfl, h⟩

theorem reread_ofRows {α : Type} {t : Table} {encode : α → Row} {f : α → α}
    (h : ∀ x, (encode x).reread = encode (f x)) (xs : List α) :
    (ofRows t (xs.map encode)).reread = (xs.map f).map encode := by
  rw [reread, written_ofRows, List.map_map, List.map_map]
  exact List.map_congr_left fun x _ => h x

theorem readsBack_iff {b : Batch} {read : List Row} :
    b.ReadsBack read ↔ b.Storable ∧ read = b.reread := by
  constructor
  · intro h
    have hw := h.rows_eq
    obtain ⟨rows, tuples, hrows, htuples, hread⟩ := h
    have hwritten : b.written = rows := by
      simp [written, hrows, List.filterMap_map, Function.comp_def, Except.toOption]
    replace hread := mapM_option_eq_some.1 hread
    refine ⟨⟨rows, hrows, fun row hrow => ⟨?_, ?_⟩⟩, ?_⟩
    · obtain ⟨tuple, _, h⟩ := exists_of_forall₂ (mapM_eq_ok.1 htuples).flip hrow
      exact ⟨tuple, h⟩
    · obtain ⟨row', _, h⟩ := exists_of_forall₂ hread.flip hrow
      exact ⟨row', h⟩
    · rw [reread, hwritten]
      clear hw htuples hwritten hrows
      induction hread with
      | nil => rfl
      | @cons row row' rows read hr _ ih =>
        rw [List.map_cons, ← ih, Row.reread, hr]
        rfl
  · rintro ⟨⟨rows, hrows, h⟩, rfl⟩
    have hwritten : b.written = rows := by
      simp [written, hrows, List.filterMap_map, Function.comp_def, Except.toOption]
    obtain ⟨tuples, htuples⟩ : ∃ tuples, rows.mapM b.table.encodeRow = .ok tuples := by
      clear hrows hwritten
      induction rows with
      | nil => exact ⟨[], rfl⟩
      | cons row rows ih =>
        obtain ⟨⟨tuple, htuple⟩, _⟩ := h row List.mem_cons_self
        obtain ⟨tuples, htuples⟩ := ih fun r hr => h r (List.mem_cons_of_mem row hr)
        exact ⟨_, mapM_eq_ok.2 (.cons htuple (mapM_eq_ok.1 htuples))⟩
    refine ⟨rows, tuples, hrows, htuples, mapM_option_eq_some.2 ?_⟩
    rw [reread, hwritten, List.forall₂_map_right_iff, List.forall₂_same]
    intro row hrow
    obtain ⟨_, row', hread⟩ := h row hrow
    rw [Row.reread, hread]
    rfl

end Batch

/-! ## The rows of a domain -/

/-- The row with another change in place of its own. -/
def HistoryRow.map {χ χ' : Type} (f : χ → χ') (x : HistoryRow χ) : HistoryRow χ' :=
  ⟨x.id, x.stateVersion, x.entity, f x.change⟩

namespace ListKind

variable (k : ListKind)

/-- The change that a change is read back as. -/
def reread (c : k.domain.Change) : k.domain.Change := (k.reread? c).getD c

/-- The singleton that a singleton is read back as. -/
def rereadSingleton (v : k.domain.Singleton) : k.domain.Singleton := (k.rereadSingleton? v).getD v

/-- The rows of a domain as they are read back. -/
def rereadRows (R : NewRows k.domain) : NewRows k.domain :=
  ⟨R.entries.map (·.map k.reread), R.aggregates, R.singletons.map (·.map k.rereadSingleton)⟩

/-- Whether all rows of a domain can be stored. -/
structure Storable (R : NewRows k.domain) : Prop where
  entries : ∀ x ∈ R.entries, k.domain.entryTable.Storable (k.domain.encodeEntry x)
  aggregates : ∀ a ∈ R.aggregates, k.domain.aggregateSchema.table.Storable (k.domain.aggregateRow a)
  singletons : ∀ t, k.domain.singletonTable = some t →
    ∀ x ∈ R.singletons, t.table.Storable (t.encode x)

theorem reread_encodeEntry (x : k.domain.Entry) :
    (k.domain.encodeEntry x).reread = k.domain.encodeEntry (x.map k.reread) := by
  rw [Row.reread, reread?_encodeEntry, HistoryRow.map, reread]
  rcases k.reread? x.change with _ | c <;> rfl

theorem reread_aggregateRow (a : Aggregate) :
    (k.domain.aggregateRow a).reread = k.domain.aggregateRow a := by
  rw [Row.reread, reread?_aggregateRow]
  rfl

theorem reread_encodeSingleton {k : ListKind} {t : SingletonTable k.domain.Singleton}
    (ht : k.domain.singletonTable = some t) (x : k.domain.SingletonRow) :
    (t.encode x).reread = t.encode (x.map k.rereadSingleton) := by
  rw [Row.reread, reread?_encodeSingleton ht, HistoryRow.map, rereadSingleton]
  rcases k.rereadSingleton? x.change with _ | c <;> rfl

theorem storable_batchesOf {R : NewRows k.domain} :
    (∀ b ∈ k.batchesOf R, b.Storable) ↔ k.Storable R := by
  simp only [mem_batchesOf]
  constructor
  · intro h
    refine ⟨?_, ?_, fun t ht => ?_⟩
    · simpa [Batch.storable_ofRows] using h _ (.inl rfl)
    · simpa [Batch.storable_ofRows] using h _ (.inr (.inl rfl))
    · simpa [Batch.storable_ofRows] using h _ (.inr (.inr ⟨t, ht, rfl⟩))
  · rintro h _ (rfl | rfl | ⟨t, ht, rfl⟩)
    · simpa [Batch.storable_ofRows] using h.entries
    · simpa [Batch.storable_ofRows] using h.aggregates
    · simpa [Batch.storable_ofRows] using h.singletons t ht

/-! ## Rows that differ in ids -/

theorem sameShape_encodeEntry {x y : k.domain.Entry} (h : x.change = y.change) :
    List.Forall₂ ColumnValue.SameShape (k.domain.encodeEntry x) (k.domain.encodeEntry y) := by
  obtain ⟨id, version, entity, c⟩ := x
  obtain ⟨id', version', entity', c'⟩ := y
  obtain rfl : c = c' := h
  have hrefl : ∀ row : Row, List.Forall₂ ColumnValue.SameShape row row := fun row =>
    List.forall₂_same.2 fun v _ => .refl v
  cases k <;> exact .cons (.int8 ..) (.cons (.int8 ..) (.cons (.int8 ..) (hrefl _)))

theorem sameShape_encodeSingleton {k : ListKind} {t : SingletonTable k.domain.Singleton}
    (ht : k.domain.singletonTable = some t) {x y : k.domain.SingletonRow} (h : x.change = y.change) :
    List.Forall₂ ColumnValue.SameShape (t.encode x) (t.encode y) := by
  obtain ⟨id, version, entity, c⟩ := x
  obtain ⟨id', version', entity', c'⟩ := y
  obtain rfl : c = c' := h
  cases k <;> cases ht
  exact .cons (.int8 ..) (.cons (.int8 ..) (.cons (.int8 ..) (.cons (.refl _) .nil)))

theorem sameShape_aggregateRow {a b : Aggregate} (hl : a.list.ids.length = b.list.ids.length)
    (hs : a.singleton.isSome = b.singleton.isSome) : List.Forall₂ ColumnValue.SameShape
      (k.domain.aggregateRow a) (k.domain.aggregateRow b) := by
  have hsingleton : ColumnValue.SameShape (.ofOption .int8 a.singleton)
      (.ofOption .int8 b.singleton) := by
    rcases ha : a.singleton with _ | i <;> rcases hb : b.singleton with _ | j <;>
      rw [ha, hb] at hs
    · exact .refl _
    · cases hs
    · cases hs
    · exact .int8 i j
  have hlist : ColumnValue.SameShape (.int8Array a.list.ids) (.int8Array b.list.ids) := .int8Array hl
  unfold ListDomain.aggregateRow
  rcases k.domain.aggregateSchema.singletonColumn with _ | _
  · exact .cons (.int8 ..) (.cons (.int8 ..) (.cons (.int8 ..) (.cons hlist .nil)))
  · exact .cons (.int8 ..) (.cons (.int8 ..) (.cons (.int8 ..)
      (.cons hsingleton (.cons hlist .nil))))

end ListKind

namespace PlainKind

variable (k : PlainKind)

/-- The change that a change is read back as. -/
def reread (c : k.domain.Change) : k.domain.Change := (k.reread? c).getD c

theorem reread_encode (x : HistoryRow k.domain.Change) :
    (k.domain.encode x).reread = k.domain.encode (x.map k.reread) := by
  rw [Row.reread, reread?_encode, HistoryRow.map, reread]
  rcases k.reread? x.change with _ | c <;> rfl

theorem sameShape_encode {x y : HistoryRow k.domain.Change} (h : x.change = y.change) :
    List.Forall₂ ColumnValue.SameShape (k.domain.encode x) (k.domain.encode y) := by
  obtain ⟨id, version, entity, c⟩ := x
  obtain ⟨id', version', entity', c'⟩ := y
  obtain rfl : c = c' := h
  cases k <;> exact .cons (.int8 ..) (.cons (.int8 ..) (.cons (.int8 ..) (.cons (.refl _) .nil)))

end PlainKind

end LedgerHistory
