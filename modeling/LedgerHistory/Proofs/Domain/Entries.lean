import LedgerHistory.Proofs.Domain.Rows
import LedgerHistory.Proofs.Recording.Fitting

/-!
# Entries of the domains

A domain takes the substates that are its own, and refuses one of them only where an address is not
found (`ListKind.meaningOf_eq_error_iff`). What it makes of them lines up with the schema of its
entries by the names of the columns: a row is taken in writing and is read back, has the entity and
the key where they are looked up, and shows a deletion just if the substate records one
(`ListKind.coherent`).
-/

namespace LedgerHistory

/-- The field of a row under a column's name. -/
def Table.fieldNamed (t : Table) (row : Row) (name : String) : Except StoreError ColumnValue :=
  (t.positionOf name).map (Row.at row)

theorem Table.mapM_fieldNamed {t : Table} {names : List String} {positions : List Nat}
    (h : names.mapM t.positionOf = .ok positions) (row : Row) :
    names.mapM (t.fieldNamed row) = .ok (positions.map (Row.at row)) := by
  rw [mapM_eq_ok, List.forall₂_map_right_iff]
  exact (mapM_eq_ok.1 h).imp fun name i hi => map_eq_ok.2 ⟨i, hi, rfl⟩

/-- The error of a global address that is not found. -/
theorem KnownEntities.eq_notFound_of_lookupGlobal {known : KnownEntities} {a : Address}
    {e : InvocationError} (h : (known.lookupGlobal a).1 = .error e) :
    e = .notFound (.globalAddress a) := by
  rcases hl : (known.byGlobalAddress.lookup globalKey known.order a).1 with _ | found <;>
    simp [lookupGlobal, hl] at h
  exact h.symm

namespace ListKind

variable {s : Substate} {known : KnownEntities} {k : ListKind}

/-! ## Substates -/

/-- The reading of a substate gives its meaning under some numbers, or else it fails with the error of
an address that is not found, and the substate is one of the domain. -/
theorem meaningOf_cases (k : ListKind) (s : Substate) (known : KnownEntities) :
    (∃ number, k.domain.meaningOf s known = .ok (k.meaning number s))
      ∨ s.domain? = some k.domain.name ∧ ∃ a ∈ s.mentions, ∃ e,
        (known.lookupGlobal a).1 = .error e ∧ k.domain.meaningOf s known = .error e := by
  by_cases hfound : ∀ a ∈ s.mentions, ∃ e, (known.lookupGlobal a).1 = .ok e
  · refine .inl ⟨fun a => ((known.lookupGlobal a).1.toOption.map (·.id)).getD default, ?_⟩
    refine k.meaningOf_eq fun a ha => ?_
    obtain ⟨e, he⟩ := hfound a ha
    exact ⟨e, he, by rw [he]; rfl⟩
  · simp only [not_forall] at hfound
    obtain ⟨a, ha, hmissing⟩ := hfound
    rcases he : (known.lookupGlobal a).1 with e | found
    · by_cases hd : s.domain? = some k.domain.name
      · exact .inr ⟨hd, a, ha, e, he, meaningOf_eq_error hd ha he⟩
      · have hnone : k.meaning default s = none :=
          Option.not_isSome_iff_eq_none.1 (mt (k.isSome_meaning default).1 hd)
        exact .inl ⟨default, by rw [meaningOf_of_ne hd, hnone]⟩
    · exact absurd ⟨found, he⟩ hmissing

/-- The reading of a substate fails just where the domain is its own and an address that it mentions is
not found. -/
theorem meaningOf_eq_error_iff {e : InvocationError} :
    k.domain.meaningOf s known = .error e ↔ s.domain? = some k.domain.name
      ∧ ∃ a ∈ s.mentions, (known.lookupGlobal a).1 = .error e := by
  refine ⟨fun h => ?_, fun ⟨hd, a, ha, he⟩ => meaningOf_eq_error hd ha he⟩
  obtain ⟨number, hm⟩ | ⟨hd, a, ha, e', he, hm⟩ := k.meaningOf_cases s known
  · rw [hm] at h
    cases h
  · rw [hm] at h
    cases h
    exact ⟨hd, a, ha, he⟩

/-- A substate is passed over just by the domains that it is not of. -/
theorem meaningOf_eq_none_iff :
    k.domain.meaningOf s known = .ok none ↔ s.domain? ≠ some k.domain.name := by
  refine ⟨fun h hd => ?_, fun hd => meaningOf_of_ne hd known⟩
  obtain ⟨number, hm⟩ | ⟨_, _, _, e, _, hm⟩ := k.meaningOf_cases s known
  · have hsome := (k.isSome_meaning number).2 hd
    rw [Except.ok.inj (hm.symm.trans h)] at hsome
    cases hsome
  · rw [hm] at h
    cases h

theorem isDeletion_of_meaningOf {c : k.domain.Change}
    (h : k.domain.meaningOf s known = .ok (some (.entry c))) :
    k.domain.isDeletion c = s.isDeletion := by
  obtain ⟨number, hm⟩ | ⟨_, _, _, e, _, hm⟩ := k.meaningOf_cases s known
  · exact isDeletion_of_meaning (Except.ok.inj (hm.symm.trans h))
  · rw [hm] at h
    cases h

/-! ## Rows -/

/-- How a row of the domain's entries shows a deletion: by the flag for it, or by the lack of an
amount. -/
def deletionMark : ListKind → String × ColumnValue
  | .methodRoyalty => ("royalty_amount", .null)
  | .metadata | .roleAssignment | .resourcePreference | .authorizedDepositor =>
    ("is_deleted", .bool true)

/-- The row of an entry is taken in writing just if no field is too long to be written. -/
theorem write_encodeEntry_isOk_iff (k : ListKind) (x : k.domain.Entry) :
    (∃ w, (BulkStream.new k.domain.entryTable).write (k.domain.encodeEntry x) = .ok w)
      ↔ (k.domain.encodeEntry x).IsShort := by
  rw [BulkStream.write_isOk_iff]
  refine ⟨fun h v hv => ?_, fun h => Row.forall₂_accepts (k.fits_encodeEntry x) h⟩
  obtain ⟨c, -, hc⟩ := exists_of_forall₂ h hv
  exact hc.short

theorem positionOf_keyColumns (k : ListKind) :
    k.domain.keyColumns.mapM k.domain.entryTable.positionOf = .ok k.keyPositions := by
  cases k <;> rfl

/-- The columns that entries are looked up by hold the entity and the fields of the key. -/
theorem fieldsNamed_keyColumns (k : ListKind) (x : k.domain.Entry) :
    k.domain.keyColumns.mapM (k.domain.entryTable.fieldNamed (k.domain.encodeEntry x))
      = .ok (.ofEntityId x.entity :: k.domain.keyValues (k.domain.keyOf x.change)) := by
  rw [Table.mapM_fieldNamed k.positionOf_keyColumns, k.at_keyPositions]
  rfl

theorem fieldNamed_isDeleted (k : ListKind) (hk : k ≠ .methodRoyalty) (x : k.domain.Entry) :
    k.domain.entryTable.fieldNamed (k.domain.encodeEntry x) "is_deleted"
      = .ok (.bool (k.domain.isDeletion x.change)) := by
  cases k with
  | methodRoyalty => exact absurd rfl hk
  | metadata | roleAssignment | resourcePreference | authorizedDepositor => rfl

theorem fieldNamed_amount (x : MethodRoyalty.domain.Entry) :
    MethodRoyalty.domain.entryTable.fieldNamed (MethodRoyalty.domain.encodeEntry x) "royalty_amount"
      = .ok (.ofOption .jsonb (MethodRoyalty.Change.amount x.change)) := rfl

/-- A row shows a deletion just if it is one. -/
theorem fieldNamed_deletionMark (k : ListKind) (x : k.domain.Entry) :
    k.domain.entryTable.fieldNamed (k.domain.encodeEntry x) k.deletionMark.1 = .ok k.deletionMark.2
      ↔ k.domain.isDeletion x.change := by
  by_cases hk : k = .methodRoyalty
  · subst hk
    obtain ⟨id, version, entity, ⟨methodName, amount, isLocked⟩⟩ := x
    refine (Eq.congr_left (fieldNamed_amount _)).trans ?_
    cases amount <;> simp [deletionMark, ColumnValue.ofOption, domain, MethodRoyalty.domain]
  · have hmark : k.deletionMark = ("is_deleted", .bool true) := by
      cases k with
      | methodRoyalty => exact absurd rfl hk
      | metadata | roleAssignment | resourcePreference | authorizedDepositor => rfl
    rw [hmark, k.fieldNamed_isDeleted hk]
    simp

/-- What the parts of a domain have to do with each other. -/
structure IsCoherent (k : ListKind) : Prop where
  /-- A substate of the domain gives a change of an entry or of the singleton, or an address is not
  found; any other gives neither. -/
  recognized (s : Substate) (known : KnownEntities) :
    (∃ m, k.domain.meaningOf s known = .ok (some m))
      ∨ (∃ key, k.domain.meaningOf s known = .error (.notFound key))
      ↔ s.domain? = some k.domain.name
  passedOver (s : Substate) (known : KnownEntities) :
    k.domain.meaningOf s known = .ok none ↔ s.domain? ≠ some k.domain.name
  refused (s : Substate) (known : KnownEntities) (e : InvocationError) :
    k.domain.meaningOf s known = .error e ↔ s.domain? = some k.domain.name
      ∧ ∃ a ∈ s.mentions, (known.lookupGlobal a).1 = .error e
  /-- A change removes its key just if the substate does. -/
  removes (s : Substate) (known : KnownEntities) (c : k.domain.Change)
    (h : k.domain.meaningOf s known = .ok (some (.entry c))) : k.domain.isDeletion c = s.isDeletion
  /-- The entry of a change has the id, the entity and the key that it is made for. -/
  made (id version : Int64) (entity : EntityId) (c : k.domain.Change) :
    (⟨id, version, entity, c⟩ : k.domain.Entry).id = id
      ∧ k.domain.entryKey ⟨id, version, entity, c⟩ = (entity, k.domain.keyOf c)
  readBack (x : k.domain.Entry) : k.domain.decodeEntry (k.domain.encodeEntry x) = .ok x
  taken (x : k.domain.Entry) :
    (∃ w, (BulkStream.new k.domain.entryTable).write (k.domain.encodeEntry x) = .ok w)
      ↔ (k.domain.encodeEntry x).IsShort
  lookedUp (x : k.domain.Entry) :
    k.domain.keyColumns.mapM (k.domain.entryTable.fieldNamed (k.domain.encodeEntry x))
      = .ok (.ofEntityId x.entity :: k.domain.keyValues (k.domain.keyOf x.change))
  toldApart (key key' : k.domain.Key) :
    k.domain.keyValues key = k.domain.keyValues key' ↔ key = key'
  /-- A row shows a deletion just if the change is one. -/
  marked (x : k.domain.Entry) :
    k.domain.entryTable.fieldNamed (k.domain.encodeEntry x) k.deletionMark.1 = .ok k.deletionMark.2
      ↔ k.domain.isDeletion x.change

/-- Every domain is coherent. -/
theorem coherent (k : ListKind) : k.IsCoherent where
  recognized s known := by
    constructor
    · rintro (⟨m, hm⟩ | ⟨key, hm⟩)
      · by_contra hd
        rw [meaningOf_of_ne hd] at hm
        cases hm
      · exact (meaningOf_eq_error_iff.1 hm).1
    · intro hd
      rcases hm : k.domain.meaningOf s known with e | _ | m
      · obtain ⟨-, a, -, he⟩ := meaningOf_eq_error_iff.1 hm
        exact .inr ⟨_, congrArg Except.error (KnownEntities.eq_notFound_of_lookupGlobal he)⟩
      · exact absurd hd (meaningOf_eq_none_iff.1 hm)
      · exact .inl ⟨m, rfl⟩
  passedOver _ _ := meaningOf_eq_none_iff
  refused _ _ _ := meaningOf_eq_error_iff
  removes _ _ _ := isDeletion_of_meaningOf
  made _ _ _ _ := ⟨rfl, rfl⟩
  readBack := k.decode_encodeEntry
  taken := k.write_encodeEntry_isOk_iff
  lookedUp := k.fieldsNamed_keyColumns
  toldApart _ _ := ⟨k.keyValues_injective, congrArg _⟩
  marked := k.fieldNamed_deletionMark

/-- A royalty that is there as null. -/
def nullRoyalty : MethodRoyalty.Change := ⟨"swap", some (.ofJson .null), false⟩

theorem coherent_nullRoyalty :
    ListKind.methodRoyalty.domain.meaningOf (.methodRoyalty "swap" (some (.ofJson .null)) false) .empty
      = .ok (some (.entry nullRoyalty))
    ∧ MethodRoyalty.domain.isDeletion nullRoyalty
      = Substate.isDeletion (.methodRoyalty "swap" (some (.ofJson .null)) false)
    ∧ MethodRoyalty.domain.decodeEntry (MethodRoyalty.domain.encodeEntry ⟨1, 2, ⟨3⟩, nullRoyalty⟩)
      = .ok ⟨1, 2, ⟨3⟩, nullRoyalty⟩ :=
  ⟨rfl, (coherent .methodRoyalty).removes _ .empty nullRoyalty rfl,
    (coherent .methodRoyalty).readBack ⟨1, 2, ⟨3⟩, nullRoyalty⟩⟩

end ListKind

end LedgerHistory
