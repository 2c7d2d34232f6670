import LedgerHistory.Ledger.Extension
import LedgerHistory.Proofs.Aggregate.Layouts
import LedgerHistory.Proofs.Domain.Meaning
import LedgerHistory.Proofs.Store.Copy
import LedgerHistory.Proofs.Store.Answers

/-!
# The rows of the domains

A row of an entry is read back with its documents read anew (`ListKind.reread?_encodeEntry`), which
keeps the key and whether it is a deletion. The look-ups of a domain find its rows and read them
(`ListKind.reads_entryLookup`, `ListKind.reads_aggregateLookup`).
-/

namespace LedgerHistory

/-! ## Reading back -/

/-- The document that a document is read back as, if it is read back at all. -/
def Document.reread? (d : Document) : Option Document :=
  (Copy.documentOf (Utf8.encode d.value.compact)).toOption

/-- Whether a document has no double. -/
def Document.IsFloatFree (d : Document) : Prop := d.value.isFloatFree

theorem Document.reread?_of_floatFree {d d' : Document} (h : d.IsFloatFree)
    (hd : d.reread? = some d') : d' = d := by
  have hv : (ColumnValue.jsonb d).reread? = some (.jsonb d') := by
    show d.reread?.map ColumnValue.jsonb = _
    rw [hd]
    rfl
  exact ColumnValue.jsonb.inj (ColumnValue.reread?_of_floatFree h hv)

theorem ColumnValue.reread?_jsonb (d : Document) :
    (ColumnValue.jsonb d).reread? = d.reread?.map .jsonb := rfl

theorem Row.reread?_cons (v : ColumnValue) (row : Row) :
    Row.reread? (v :: row) = v.reread?.bind fun v => (Row.reread? row).map (v :: ·) := by
  rw [Row.reread?, List.mapM_cons]
  rcases v.reread? with _ | v
  · rfl
  · show _ = (Row.reread? row).map (v :: ·)
    rcases h : Row.reread? row with _ | row' <;> rw [Row.reread?] at h <;> simp [h]

namespace ListKind

def documents : (k : ListKind) → k.domain.Change → List Document
  | .metadata, _ => []
  | .roleAssignment, c => (RoleAssignment.Change.rule c).toList
  | .methodRoyalty, c => (MethodRoyalty.Change.amount c).toList
  | .resourcePreference, _ => []
  | .authorizedDepositor, _ => []

def singletonDocuments : (k : ListKind) → k.domain.Singleton → List Document
  | .roleAssignment, d => [d]
  | .metadata, v | .methodRoyalty, v | .resourcePreference, v | .authorizedDepositor, v => nomatch v

/-- The change that is read back where a change was written. -/
def reread? : (k : ListKind) → k.domain.Change → Option k.domain.Change
  | .metadata, c => some c
  | .roleAssignment, c => match RoleAssignment.Change.rule c with
    | none => some c
    | some d => d.reread?.map fun d => ({ (c : RoleAssignment.Change) with rule := some d })
  | .methodRoyalty, c => match MethodRoyalty.Change.amount c with
    | none => some c
    | some d => d.reread?.map fun d => ({ (c : MethodRoyalty.Change) with amount := some d })
  | .resourcePreference, c => some c
  | .authorizedDepositor, c => some c

/-- The singleton that is read back where one was written. -/
def rereadSingleton? : (k : ListKind) → k.domain.Singleton → Option k.domain.Singleton
  | .roleAssignment, d => Document.reread? d
  | .metadata, v | .methodRoyalty, v | .resourcePreference, v | .authorizedDepositor, v => nomatch v

theorem reread?_encodeEntry (k : ListKind) (x : k.domain.Entry) :
    (k.domain.encodeEntry x).reread?
      = (k.reread? x.change).map fun c => k.domain.encodeEntry { x with change := c } := by
  obtain ⟨id, version, entity, c⟩ := x
  cases k with
  | metadata =>
    obtain ⟨key, value, isLocked⟩ := c
    cases value <;> rfl
  | roleAssignment =>
    obtain ⟨roleKey, scope, rule⟩ := c
    cases rule with
    | none => rfl
    | some d =>
      simp only [domain, RoleAssignment.domain, RoleAssignment.encode, historyFields, List.cons_append,
        List.nil_append, Row.reread?_cons, ColumnValue.ofOption, ColumnValue.reread?_jsonb, reread?]
      rcases d.reread? with _ | d' <;> rfl
  | methodRoyalty =>
    obtain ⟨methodName, amount, isLocked⟩ := c
    cases amount with
    | none => rfl
    | some d =>
      simp only [domain, MethodRoyalty.domain, MethodRoyalty.encode, historyFields, List.cons_append,
        List.nil_append, Row.reread?_cons, ColumnValue.ofOption, ColumnValue.reread?_jsonb, reread?]
      rcases d.reread? with _ | d' <;> rfl
  | resourcePreference =>
    obtain ⟨resource, preference⟩ := c
    cases preference <;> rfl
  | authorizedDepositor =>
    obtain ⟨key, isDeleted⟩ := c
    cases key <;> rfl

theorem reread?_encodeSingleton {k : ListKind} {t : SingletonTable k.domain.Singleton}
    (ht : k.domain.singletonTable = some t) (x : k.domain.SingletonRow) :
    (t.encode x).reread? = (k.rereadSingleton? x.change).map fun c => t.encode { x with change := c } := by
  cases k <;> cases ht
  obtain ⟨id, version, entity, (d : Document)⟩ := x
  simp only [historyFields, List.cons_append, List.nil_append, Row.reread?_cons,
    ColumnValue.reread?_jsonb, rereadSingleton?]
  rcases Document.reread? d with _ | d' <;> rfl

theorem keyOf_reread? {k : ListKind} {c c' : k.domain.Change} (h : k.reread? c = some c') :
    k.domain.keyOf c' = k.domain.keyOf c ∧ k.domain.isDeletion c' = k.domain.isDeletion c := by
  cases k with
  | metadata | resourcePreference | authorizedDepositor =>
    cases h
    exact ⟨rfl, rfl⟩
  | roleAssignment =>
    obtain ⟨roleKey, scope, rule⟩ := c
    cases rule with
    | none =>
      cases h
      exact ⟨rfl, rfl⟩
    | some d =>
      obtain ⟨d', _, rfl⟩ := Option.map_eq_some_iff.1 h
      exact ⟨rfl, rfl⟩
  | methodRoyalty =>
    obtain ⟨methodName, amount, isLocked⟩ := c
    cases amount with
    | none =>
      cases h
      exact ⟨rfl, rfl⟩
    | some d =>
      obtain ⟨d', _, rfl⟩ := Option.map_eq_some_iff.1 h
      exact ⟨rfl, rfl⟩

theorem reread?_of_floatFree {k : ListKind} {c c' : k.domain.Change}
    (hf : ∀ d ∈ k.documents c, d.IsFloatFree) (h : k.reread? c = some c') : c' = c := by
  cases k with
  | metadata | resourcePreference | authorizedDepositor =>
    cases h
    rfl
  | roleAssignment =>
    obtain ⟨roleKey, scope, rule⟩ := c
    cases rule with
    | none =>
      cases h
      rfl
    | some d =>
      obtain ⟨d', hd, rfl⟩ := Option.map_eq_some_iff.1 h
      rw [Document.reread?_of_floatFree (hf d List.mem_cons_self) hd]
  | methodRoyalty =>
    obtain ⟨methodName, amount, isLocked⟩ := c
    cases amount with
    | none =>
      cases h
      rfl
    | some d =>
      obtain ⟨d', hd, rfl⟩ := Option.map_eq_some_iff.1 h
      rw [Document.reread?_of_floatFree (hf d List.mem_cons_self) hd]

theorem rereadSingleton?_of_floatFree {k : ListKind} {v v' : k.domain.Singleton}
    (hf : ∀ d ∈ k.singletonDocuments v, d.IsFloatFree) (h : k.rereadSingleton? v = some v') :
    v' = v := by
  cases k with
  | roleAssignment => exact Document.reread?_of_floatFree (hf _ List.mem_cons_self) h
  | metadata | methodRoyalty | resourcePreference | authorizedDepositor => exact nomatch v

end ListKind

namespace PlainKind

def documents : (k : PlainKind) → k.domain.Change → List Document
  | .defaultDepositRule, _ => []
  | .componentState, d => [d]

/-- The change that is read back where a change was written. -/
def reread? : (k : PlainKind) → k.domain.Change → Option k.domain.Change
  | .defaultDepositRule, c => some c
  | .componentState, d => Document.reread? d

theorem reread?_encode (k : PlainKind) (x : HistoryRow k.domain.Change) :
    (k.domain.encode x).reread?
      = (k.reread? x.change).map fun c => k.domain.encode { x with change := c } := by
  cases k with
  | defaultDepositRule => rfl
  | componentState =>
    obtain ⟨id, version, entity, (d : Document)⟩ := x
    simp only [domain, ComponentState.domain, historyFields, List.cons_append, List.nil_append,
      Row.reread?_cons, ColumnValue.reread?_jsonb, reread?]
    rcases Document.reread? d with _ | d' <;> rfl

theorem reread?_of_floatFree {k : PlainKind} {c c' : k.domain.Change}
    (hf : ∀ d ∈ k.documents c, d.IsFloatFree) (h : k.reread? c = some c') : c' = c := by
  cases k with
  | defaultDepositRule =>
    cases h
    rfl
  | componentState => exact Document.reread?_of_floatFree (hf _ List.mem_cons_self) h

end PlainKind

/-! ## Documents of events -/

def Substate.documents : Substate → List Document
  | .roleAssignmentOwner ownerRole => [ownerRole]
  | .roleAssignmentRule _ _ rule => rule.toList
  | .methodRoyalty _ amount _ => amount.toList
  | .componentState state => [state]
  | _ => []

/-- Whether no document of the events has a double. -/
def LedgerExtension.IsFloatFree (x : LedgerExtension) : Prop :=
  ∀ y ∈ x.events, ∀ d ∈ y.2.substate.documents, d.IsFloatFree

theorem LedgerExtension.isFloatFree_of_documents {x : LedgerExtension}
    (h : ∀ y ∈ x.events, y.2.substate.documents = []) : x.IsFloatFree := by
  intro y hy d hd
  rw [h y hy] at hd
  cases hd

theorem ListKind.documents_entry {number : Numbering} {k : ListKind} {s : Substate}
    {c : k.domain.Change} (h : k.meaning number s = some (.entry c)) :
    k.documents c = s.documents := by
  cases k <;> cases s <;> cases h <;> rfl

theorem ListKind.documents_singleton {number : Numbering} {k : ListKind} {s : Substate}
    {v : k.domain.Singleton} (h : k.meaning number s = some (.singleton v)) :
    k.singletonDocuments v = s.documents := by
  cases k <;> cases s <;> cases h
  rfl

theorem PlainKind.documents_change {k : PlainKind} {s : Substate} {c : k.domain.Change}
    (h : k.domain.meaningOf s = some c) : k.documents c = s.documents := by
  cases k <;> cases s <;> cases h <;> rfl

/-! ## Aggregates -/

namespace ListDomain

def aggregateRow (d : ListDomain) (a : Aggregate) : Row :=
  [.int8 a.id, .int8 a.stateVersion, .ofEntityId a.entity]
    ++ (d.aggregateSchema.singletonColumn.map fun _ => ColumnValue.ofOption .int8 a.singleton).toList
    ++ [.int8Array a.list.ids]

end ListDomain

namespace ListKind

theorem encode_aggregate (k : ListKind) (a : Aggregate) :
    k.domain.aggregateSchema.encode a = .ok (k.domain.aggregateRow a) := by
  cases k <;> rfl

/-- The columns of every domain have the names of the parts of its aggregates. -/
theorem isProper (k : ListKind) : k.domain.aggregateSchema.IsProper := by
  cases k <;> decide

theorem reread?_aggregateRow (k : ListKind) (a : Aggregate) :
    (k.domain.aggregateRow a).reread? = some (k.domain.aggregateRow a) := by
  obtain ⟨id, version, entity, list, singleton⟩ := a
  cases k <;> cases singleton <;> rfl

theorem decode_aggregateRow (k : ListKind) {a : Aggregate}
    (h : k.domain.aggregateSchema.singletonColumn = none → a.singleton = none) :
    k.domain.aggregateSchema.decode (k.domain.aggregateRow a) = .ok a := by
  have hkept : k.domain.aggregateSchema.kept a = a := by
    unfold AggregateSchema.kept
    rcases hc : k.domain.aggregateSchema.singletonColumn with _ | c
    · exact congrArg (Aggregate.mk _ _ _ _) (h hc).symm
    · rfl
  rw [AggregateSchema.decode_of_encode k.isProper (k.encode_aggregate a), hkept]

theorem decode_encodeEntry (k : ListKind) (x : k.domain.Entry) :
    k.domain.decodeEntry (k.domain.encodeEntry x) = .ok x := by
  obtain ⟨id, version, entity, c⟩ := x
  cases k with
  | metadata =>
    obtain ⟨key, value, isLocked⟩ := c
    cases value <;> rfl
  | roleAssignment =>
    obtain ⟨roleKey, scope, rule⟩ := c
    cases rule <;> cases scope <;> rfl
  | methodRoyalty =>
    obtain ⟨methodName, amount, isLocked⟩ := c
    cases amount <;> rfl
  | resourcePreference =>
    obtain ⟨resource, preference⟩ := c
    rcases preference with _ | preference
    · rfl
    · cases preference <;> rfl
  | authorizedDepositor =>
    obtain ⟨key, isDeleted⟩ := c
    cases key <;> rfl

end ListKind

/-! ## Ids -/

theorem ListKind.at_encodeEntry (k : ListKind) (x : k.domain.Entry) :
    Row.at (k.domain.encodeEntry x) 0 = .int8 x.id := by
  cases k <;> rfl

theorem ListKind.at_encodeSingleton {k : ListKind} {t : SingletonTable k.domain.Singleton}
    (ht : k.domain.singletonTable = some t) (x : k.domain.SingletonRow) :
    Row.at (t.encode x) 0 = .int8 x.id := by
  cases k <;> cases ht
  rfl

theorem PlainKind.at_encode (k : PlainKind) (x : HistoryRow k.domain.Change) :
    Row.at (k.domain.encode x) 0 = .int8 x.id := by
  cases k <;> rfl

/-! ## Look-ups -/

/-- The state versions and ids of history rows. -/
def HistoryRow.versioned (χ : Type) : Versioned (HistoryRow χ) := ⟨(·.stateVersion), (·.id)⟩

/-- The state versions and ids of aggregates. -/
def Aggregate.versioned : Versioned Aggregate := ⟨(·.stateVersion), (·.id)⟩

theorem LatestQuery.validate_eq_ok {q : LatestQuery} {columns : List Column}
    (hne : q.keyColumns.isEmpty = false) (hc : q.keyColumns.mapM q.table.column = .ok columns)
    (hk : ∀ key ∈ q.keys, checkKey columns key = .ok ()) :
    q.validate = .ok (columns.map (·.type)) := by
  have hv : q.validColumns = .ok columns :=
    validColumns_eq_ok.2 ⟨List.isEmpty_eq_false_iff.1 hne, mapM_eq_ok.1 hc, hk⟩
  rw [validate, hv]
  rfl

theorem ColumnValue.same_iff {v v' : ColumnValue} (h : ∀ d, v' ≠ .jsonb d) :
    v.same v' = true ↔ v = v' := by
  cases v' with
  | jsonb d => exact absurd rfl (h d)
  | _ => cases v <;> simp [same]

/-- A row has a key without documents when it has its fields. -/
theorem LatestQuery.Layout.hasKey_eq_true {l : Layout} {key row : Row}
    (hl : l.key.length = key.length) (h : ∀ v ∈ key, ∀ d, v ≠ .jsonb d) :
    l.hasKey key row = true ↔ l.key.map (Row.at row) = key := by
  obtain ⟨is, _, _⟩ := l
  show ((is.zip key).all fun e => (Row.at row e.1).same e.2) = true ↔ is.map (Row.at row) = key
  simp only at hl
  induction is generalizing key with
  | nil =>
    obtain rfl : key = [] := List.length_eq_zero_iff.1 hl.symm
    simp
  | cons i is ih =>
    cases key with
    | nil => cases hl
    | cons v key =>
      have ih := ih (fun u hu => h u (List.mem_cons_of_mem v hu)) (Nat.succ.inj hl)
      rw [List.zip_cons_cons, List.all_cons, Bool.and_eq_true,
        ColumnValue.same_iff (h v List.mem_cons_self), ih, List.map_cons, List.cons.injEq]

theorem ModuleId.label_injective {a b : ModuleId} (h : label a = label b) : a = b := by
  have := ModuleId.parse_label a
  rw [h, ModuleId.parse_label] at this
  exact (Except.ok.inj this).symm

namespace ListKind

open ListRecorder (entryLookup aggregateLookup)

theorem reads_aggregateLookup (k : ListKind) {xs : List Aggregate}
    (h : ∀ a ∈ xs, k.domain.aggregateSchema.singletonColumn = none → a.singleton = none) :
    (aggregateLookup k.domain).Reads Aggregate.versioned k.domain.aggregateRow (·.entity) xs where
  valid keys bound := by
    obtain ⟨columns, hc⟩ : ∃ columns, k.domain.aggregateSchema.keyColumns.mapM
        k.domain.aggregateSchema.table.column = .ok columns
          ∧ ∀ id, LatestQuery.checkKey columns [.ofEntityId id] = .ok () := by
      cases k <;> exact ⟨_, rfl, fun id => rfl⟩
    refine ⟨_, LatestQuery.validate_eq_ok rfl hc.1 fun key hkey => ?_⟩
    obtain ⟨id, _, rfl⟩ := List.mem_map.1 hkey
    exact hc.2 id
  layout := by
    refine ⟨⟨[2], 1, 0⟩, fun keys bound => by cases k <;> rfl, fun a _ => ⟨rfl, rfl⟩, fun a _ id => ?_⟩
    obtain ⟨_, _, ⟨n⟩, _, _⟩ := a
    obtain ⟨m⟩ := id
    simp [LatestQuery.Layout.hasKey, aggregateLookup, ListDomain.aggregateRow, Row.at,
      ColumnValue.ofEntityId, ColumnValue.same]
  decode a ha := by
    show (k.domain.aggregateSchema.decode _).map _ = _
    rw [k.decode_aggregateRow (h a ha)]
    rfl

/-- Where the entries of a domain have the entity and the key. -/
def keyPositions : ListKind → List Nat
  | .metadata | .methodRoyalty | .resourcePreference => [2, 3]
  | .roleAssignment => [2, 3, 4]
  | .authorizedDepositor => [2, 4, 5, 6]

theorem at_keyPositions (k : ListKind) (x : k.domain.Entry) :
    k.keyPositions.map (Row.at (k.domain.encodeEntry x))
      = (entryLookup k.domain).keyValues (k.domain.entryKey x) := by
  cases k <;> rfl

theorem keyValues_ne_jsonb (k : ListKind) (key : k.domain.EntryKey) :
    ∀ v ∈ (entryLookup k.domain).keyValues key, ∀ d, v ≠ .jsonb d := by
  obtain ⟨⟨n⟩, key⟩ := key
  cases k with
  | authorizedDepositor =>
    rcases (key : Depositor.Key) with r | ⟨r, i⟩ <;>
      simp [entryLookup, domain, Depositor.domain, Depositor.Key.fields, Depositor.Key.localId?,
        ColumnValue.ofEntityId, ColumnValue.ofLabel, ColumnValue.ofOption]
  | roleAssignment =>
    simp [entryLookup, domain, RoleAssignment.domain, ColumnValue.ofEntityId, ColumnValue.ofLabel]
  | metadata => simp [entryLookup, domain, Metadata.domain, ColumnValue.ofEntityId]
  | methodRoyalty => simp [entryLookup, domain, MethodRoyalty.domain, ColumnValue.ofEntityId]
  | resourcePreference => simp [entryLookup, domain, Preference.domain, ColumnValue.ofEntityId]

theorem keyValues_injective (k : ListKind) {key key' : k.domain.Key}
    (h : k.domain.keyValues key = k.domain.keyValues key') : key = key' := by
  cases k with
  | metadata | methodRoyalty => exact ColumnValue.text.inj (List.cons.inj h).1
  | resourcePreference =>
    exact congrArg EntityId.mk (ColumnValue.int8.inj (List.cons.inj h).1)
  | roleAssignment =>
    obtain ⟨h₁, h₂⟩ := List.cons.inj h
    exact Prod.ext (ColumnValue.text.inj h₁)
      (ModuleId.label_injective (ColumnValue.enum.inj (List.cons.inj h₂).1))
  | authorizedDepositor =>
    obtain ⟨h₁, h⟩ := List.cons.inj h
    obtain ⟨h₂, h⟩ := List.cons.inj h
    rcases (key : Depositor.Key) with r | ⟨r, i⟩ <;>
      rcases (key' : Depositor.Key) with r' | ⟨r', i'⟩
    · exact congrArg Depositor.Key.resource (congrArg EntityId.mk (ColumnValue.int8.inj h₂))
    · exact absurd (ColumnValue.enum.inj h₁) (by simp [Depositor.Key.badgeType, label])
    · exact absurd (ColumnValue.enum.inj h₁) (by simp [Depositor.Key.badgeType, label])
    · exact congr (congrArg Depositor.Key.nonFungible (congrArg EntityId.mk (ColumnValue.int8.inj h₂)))
        (ColumnValue.text.inj (List.cons.inj h).1)

theorem hasKey_iff (k : ListKind) (x : k.domain.Entry) (key : k.domain.EntryKey) :
    LatestQuery.Layout.hasKey ⟨k.keyPositions, 1, 0⟩ ((entryLookup k.domain).keyValues key)
      (k.domain.encodeEntry x) = true ↔ k.domain.entryKey x = key := by
  rw [LatestQuery.Layout.hasKey_eq_true (by cases k <;> rfl), k.at_keyPositions]
  · constructor
    · intro h
      obtain ⟨h₁, h₂⟩ := List.cons.inj h
      exact Prod.ext (congrArg EntityId.mk (ColumnValue.int8.inj h₁)) (k.keyValues_injective h₂)
    · rintro rfl
      rfl
  · exact k.keyValues_ne_jsonb key

theorem reads_entryLookup (k : ListKind) (xs : List k.domain.Entry) :
    (entryLookup k.domain).Reads (HistoryRow.versioned _) k.domain.encodeEntry k.domain.entryKey xs where
  valid keys bound := by
    obtain ⟨columns, hc⟩ : ∃ columns, k.domain.keyColumns.mapM k.domain.entryTable.column = .ok columns
          ∧ ∀ key : k.domain.EntryKey, LatestQuery.checkKey columns
            ((entryLookup k.domain).keyValues key) = .ok () := by
      cases k with
      | authorizedDepositor =>
        refine ⟨_, rfl, fun (id, key) => ?_⟩
        cases (key : Depositor.Key) <;> rfl
      | metadata | roleAssignment | methodRoyalty | resourcePreference =>
        exact ⟨_, rfl, fun key => rfl⟩
    refine ⟨_, LatestQuery.validate_eq_ok (by cases k <;> rfl) hc.1 fun key hkey => ?_⟩
    obtain ⟨key, _, rfl⟩ := List.mem_map.1 hkey
    exact hc.2 key
  layout := ⟨⟨k.keyPositions, 1, 0⟩, fun keys bound => by cases k <;> rfl,
    fun x _ => by cases k <;> exact ⟨rfl, rfl⟩, fun x _ key => k.hasKey_iff x key⟩
  decode x _ := by
    show (k.domain.decodeEntry _).map _ = _
    rw [k.decode_encodeEntry x]
    rfl

end ListKind

end LedgerHistory
