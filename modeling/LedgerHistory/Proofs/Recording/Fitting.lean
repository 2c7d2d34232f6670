import LedgerHistory.Proofs.Recording.Domains
import LedgerHistory.Proofs.Recording.Storable
import LedgerHistory.Proofs.Store.Offering

/-!
# Rows that fit their tables

The rows of a domain have values of their columns' types (`ListKind.fits_encodeEntry`), so they can be
stored when no field is too long and the documents of the events are read back
(`ListKind.storable_made`, `PlainKind.storable_made`).
-/

namespace LedgerHistory

/-! ## Columns -/

/-- Whether a value is of a column's type, or empty where the column may be. -/
def Column.fits (c : Column) (v : ColumnValue) : Bool :=
  if v.isNull then c.nullable else v.hasType c.type

/-- Whether a row has a value for each column that fits it. -/
def Row.fits : List Column → Row → Bool
  | [], [] => true
  | c :: cs, v :: vs => c.fits v && Row.fits cs vs
  | _, _ => false

/-- Whether the fields of a row have lengths that can be written. -/
def Row.IsShort (row : Row) : Prop :=
  ∀ v ∈ row, ∀ p, Copy.payload? v = some p → p.length ≤ Copy.maxLength

/-- Whether the documents of the events are read back as they are written. -/
def LedgerExtension.IsFaithful (x : LedgerExtension) : Prop :=
  ∀ y ∈ x.events, ∀ d ∈ y.2.substate.documents, (ColumnValue.jsonb d).IsFaithful

theorem Column.accepts_of_fits {c : Column} {v : ColumnValue} (h : c.fits v)
    (hs : ∀ p, Copy.payload? v = some p → p.length ≤ Copy.maxLength) : c.Accepts v := by
  unfold fits at h
  refine ⟨fun hn => ?_, fun hn => ?_, hs⟩
  · rwa [if_pos (ColumnValue.isNull_iff.2 hn)] at h
  · rwa [if_neg (mt ColumnValue.isNull_iff.1 hn)] at h

theorem Row.forall₂_accepts {cs : List Column} {row : Row} (h : Row.fits cs row) (hs : row.IsShort) :
    List.Forall₂ Column.Accepts cs row := by
  induction cs generalizing row with
  | nil =>
    cases row with
    | nil => exact .nil
    | cons v row => cases h
  | cons c cs ih =>
    cases row with
    | nil => cases h
    | cons v row =>
      obtain ⟨hv, hrow⟩ := Bool.and_eq_true_iff.1 h
      exact .cons (Column.accepts_of_fits hv (hs v List.mem_cons_self))
        (ih hrow fun v' hv' => hs v' (List.mem_cons_of_mem v hv'))

/-- A row that fits its table can be stored when it is short and its documents are read back. -/
theorem Table.storable_of_fits {t : Table} {row : Row} (h : Row.fits t.columns row)
    (hs : row.IsShort) (hf : ∀ d, .jsonb d ∈ row → (ColumnValue.jsonb d).IsFaithful) :
    t.Storable row := by
  refine ⟨Table.encodeRow_isOk_iff.2 (Row.forall₂_accepts h hs), row,
    Row.reread?_of_faithful fun v hv => ?_⟩
  cases v with
  | jsonb d => exact hf d hv
  | _ => trivial

/-! ## The rows of the domains -/

namespace ListKind

variable {k : ListKind} {number : Numbering} {xs : List (Int64 × SubstateEvent)}
  {start : String → Int64} {C R : NewRows k.domain} {d : Document}

theorem fits_encodeEntry (k : ListKind) (x : k.domain.Entry) :
    Row.fits k.domain.entryTable.columns (k.domain.encodeEntry x) := by
  obtain ⟨id, version, entity, c⟩ := x
  cases k with
  | metadata =>
    obtain ⟨key, value, isLocked⟩ := c
    cases value <;> rfl
  | roleAssignment =>
    obtain ⟨roleKey, scope, rule⟩ := c
    cases rule <;> rfl
  | methodRoyalty =>
    obtain ⟨methodName, amount, isLocked⟩ := c
    cases amount <;> rfl
  | resourcePreference =>
    obtain ⟨resource, preference⟩ := c
    cases preference <;> rfl
  | authorizedDepositor =>
    obtain ⟨key, isDeleted⟩ := c
    cases key <;> rfl

theorem fits_aggregateRow (k : ListKind) {a : Aggregate}
    (ha : k.domain.aggregateSchema.singletonColumn.isSome → a.singleton.isSome) :
    Row.fits k.domain.aggregateSchema.table.columns (k.domain.aggregateRow a) := by
  obtain ⟨id, version, entity, list, singleton⟩ := a
  cases k with
  | roleAssignment =>
    obtain ⟨i, rfl⟩ := Option.isSome_iff_exists.1 (ha rfl)
    rfl
  | metadata | methodRoyalty | resourcePreference | authorizedDepositor => rfl

theorem fits_encodeSingleton {t : SingletonTable k.domain.Singleton}
    (ht : k.domain.singletonTable = some t) (x : k.domain.SingletonRow) :
    Row.fits t.table.columns (t.encode x) := by
  cases k <;> cases ht
  rfl

theorem document_of_encodeEntry {x : k.domain.Entry} (h : .jsonb d ∈ k.domain.encodeEntry x) :
    d ∈ k.documents x.change := by
  obtain ⟨id, version, entity, c⟩ := x
  cases k with
  | metadata =>
    obtain ⟨key, value, isLocked⟩ := c
    cases value <;> simp [domain, Metadata.domain, Metadata.encode, historyFields,
      ColumnValue.ofOption, ColumnValue.ofEntityId] at h
  | roleAssignment =>
    obtain ⟨roleKey, scope, rule⟩ := c
    cases rule <;> simp [domain, RoleAssignment.domain, RoleAssignment.encode, historyFields,
      ColumnValue.ofOption, ColumnValue.ofEntityId, ColumnValue.ofLabel] at h
    simp [documents, h]
  | methodRoyalty =>
    obtain ⟨methodName, amount, isLocked⟩ := c
    cases amount <;> simp [domain, MethodRoyalty.domain, MethodRoyalty.encode, historyFields,
      ColumnValue.ofOption, ColumnValue.ofEntityId] at h
    simp [documents, h]
  | resourcePreference =>
    obtain ⟨resource, preference⟩ := c
    cases preference <;> simp [domain, Preference.domain, Preference.encode, historyFields,
      ColumnValue.ofOption, ColumnValue.ofEntityId, ColumnValue.ofLabel] at h
  | authorizedDepositor =>
    obtain ⟨key, isDeleted⟩ := c
    cases key <;> simp [domain, Depositor.domain, Depositor.encode, Depositor.Key.fields,
      Depositor.Key.localId?, historyFields, ColumnValue.ofOption, ColumnValue.ofEntityId,
      ColumnValue.ofLabel] at h

theorem document_of_encodeSingleton {t : SingletonTable k.domain.Singleton}
    (ht : k.domain.singletonTable = some t) {x : k.domain.SingletonRow} (h : .jsonb d ∈ t.encode x) :
    d ∈ k.singletonDocuments x.change := by
  cases k <;> cases ht
  simp [historyFields, ColumnValue.ofEntityId] at h
  exact List.mem_singleton.2 h

theorem jsonb_notMem_aggregateRow (k : ListKind) (a : Aggregate) (d : Document) :
    .jsonb d ∉ k.domain.aggregateRow a := by
  obtain ⟨id, version, entity, list, singleton⟩ := a
  rcases hc : k.domain.aggregateSchema.singletonColumn with _ | c <;> cases singleton <;>
    simp [ListDomain.aggregateRow, hc, ColumnValue.ofOption, ColumnValue.ofEntityId]

/-- The documents of the rows that are made are those of the events. -/
theorem document_of_made (hR : k.made C start number xs = .ok R) :
    (∀ r ∈ R.entries, ∀ d ∈ k.documents r.change, ∃ y ∈ xs, d ∈ y.2.substate.documents)
      ∧ ∀ r ∈ R.singletons, ∀ d ∈ k.singletonDocuments r.change,
        ∃ y ∈ xs, d ∈ y.2.substate.documents := by
  have ht := NewRows.tells_rowsAfter hR
  constructor
  · intro r hr d hd
    have hm : (r.groupKey, r.change) ∈ NewRows.entriesOf (k.groups number xs) := by
      rw [← ht.entries]
      exact List.mem_map_of_mem (f := fun x : k.domain.Entry => (x.groupKey, x.change)) hr
    obtain ⟨g, hg, hc⟩ := List.mem_flatMap.1 hm
    obtain ⟨c, hc, he⟩ := List.mem_map.1 hc
    obtain ⟨_, rfl⟩ := Prod.mk.inj he
    obtain ⟨y, hy, hm, _⟩ := mem_visits_iff.1 (((GroupedChanges.mem_group hg).1 _).1 hc)
    exact ⟨y, hy, documents_entry hm ▸ hd⟩
  · intro r hr d hd
    have hm : (r.groupKey, r.change) ∈ NewRows.singletonsOf (k.groups number xs) := by
      rw [← ht.singletons]
      exact List.mem_map_of_mem (f := fun x : k.domain.SingletonRow => (x.groupKey, x.change)) hr
    obtain ⟨g, hg, hc⟩ := List.mem_flatMap.1 hm
    obtain ⟨c, hc, he⟩ := List.mem_map.1 hc
    obtain ⟨_, rfl⟩ := Prod.mk.inj he
    obtain ⟨y, hy, hm, _⟩ := mem_visits_iff.1 (((GroupedChanges.mem_group hg).2 _).1 hc)
    exact ⟨y, hy, documents_singleton hm ▸ hd⟩

/-- The rows that a domain makes can be stored when no field of theirs is too long. -/
theorem storable_made {x : LedgerExtension} (hx : x.IsFaithful)
    (hR : k.made C start number x.events = .ok R)
    (hpresent : k.domain.aggregateSchema.singletonColumn.isSome →
      ∀ a ∈ R.aggregates, a.singleton.isSome)
    (hshort : ∀ b ∈ k.batchesOf R, ∀ row ∈ b.written, row.IsShort) : k.Storable R := by
  obtain ⟨hentries, hsingletons⟩ := document_of_made hR
  have hshort : ∀ {t : Table} {rows : List Row}, .ofRows t rows ∈ k.batchesOf R →
      ∀ row ∈ rows, row.IsShort := fun {t rows} hb row hrow =>
    hshort _ hb row (by rwa [Batch.written_ofRows])
  refine ⟨fun r hr => ?_, fun a ha => ?_, fun t ht r hr => ?_⟩
  · refine Table.storable_of_fits (k.fits_encodeEntry r)
      (hshort (k.mem_batchesOf.2 (.inl rfl)) _ (List.mem_map_of_mem hr)) fun d hd => ?_
    obtain ⟨y, hy, hd⟩ := hentries r hr d (document_of_encodeEntry hd)
    exact hx y hy d hd
  · exact Table.storable_of_fits (k.fits_aggregateRow fun hc => hpresent hc a ha)
      (hshort (k.mem_batchesOf.2 (.inr (.inl rfl))) _ (List.mem_map_of_mem ha))
      fun d hd => absurd hd (k.jsonb_notMem_aggregateRow a d)
  · refine Table.storable_of_fits (fits_encodeSingleton ht r)
      (hshort (k.mem_batchesOf.2 (.inr (.inr ⟨t, ht, rfl⟩))) _ (List.mem_map_of_mem hr)) fun d hd => ?_
    obtain ⟨y, hy, hd⟩ := hsingletons r hr d (document_of_encodeSingleton ht hd)
    exact hx y hy d hd

end ListKind

namespace PlainKind

variable {k : PlainKind} {number : Numbering} {xs : List (Int64 × SubstateEvent)}
  {start : String → Int64}

theorem fits_encode (k : PlainKind) (r : HistoryRow k.domain.Change) :
    Row.fits k.domain.table.columns (k.domain.encode r) := by
  cases k <;> rfl

theorem document_of_encode {r : HistoryRow k.domain.Change} {d : Document}
    (h : .jsonb d ∈ k.domain.encode r) : d ∈ k.documents r.change := by
  cases k with
  | defaultDepositRule =>
    simp [domain, DepositRule.domain, historyFields, ColumnValue.ofEntityId, ColumnValue.ofLabel] at h
  | componentState =>
    simpa [domain, ComponentState.domain, historyFields, ColumnValue.ofEntityId, documents] using h

/-- The rows of a domain without lists can be stored when no field of theirs is too long. -/
theorem storable_made {x : LedgerExtension} (hx : x.IsFaithful)
    (hshort : ∀ b ∈ k.batchesOf (k.made start number x.events), ∀ row ∈ b.written, row.IsShort) :
    ∀ r ∈ k.made start number x.events, k.domain.table.Storable (k.domain.encode r) := by
  intro r hr
  have hrow : k.domain.encode r ∈ (Batch.ofRows k.domain.table
      ((k.made start number x.events).map k.domain.encode)).written := by
    rw [Batch.written_ofRows]
    exact List.mem_map_of_mem hr
  refine Table.storable_of_fits (k.fits_encode r)
    (hshort _ (List.mem_singleton_self _) _ hrow) fun d hd => ?_
  have hm : (r.groupKey, r.change) ∈ k.changes number x.events := by
    rw [← map_enumerated (start k.domain.table.name) (k.changes number x.events)]
    exact List.mem_map_of_mem (f := fun r : HistoryRow k.domain.Change => (r.groupKey, r.change)) hr
  obtain ⟨z, hz, he⟩ := List.mem_map.1 hm
  obtain ⟨y, hy, hz⟩ := List.mem_filterMap.1 hz
  obtain ⟨c, hc, rfl⟩ := Option.map_eq_some_iff.1 hz
  obtain ⟨_, rfl⟩ := Prod.mk.inj he
  exact hx y hy d (documents_change hc ▸ document_of_encode hd)

end PlainKind

end LedgerHistory
