import LedgerHistory.Proofs.Dictionary
import LedgerHistory.Proofs.Store.Answers
import LedgerHistory.Proofs.Store.Offering

/-!
# Aggregates in any layout

Columns are written by their names, in whatever order they stand, and an aggregate is read from the
first column with each name. So the columns may be in any order and may be repeated: if they have the
names of an aggregate's parts and no others, every aggregate is written and read back
(`AggregateSchema.decode_of_encode`), and a column with another name is the error
(`AggregateSchema.encode_eq_error_iff`).
-/

namespace LedgerHistory

/-! ## Columns of integers and lists -/

namespace Column

variable {c : Column}

theorem accepts_int8 (hc : c.type = .int8) (n : Int64) : c.Accepts (.int8 n) where
  nullable := nofun
  typed _ := by
    rw [hc]
    rfl
  short p hp := by
    cases hp
    rw [Bytes.length_ofInt64]
    decide

theorem accepts_optional_int8 (hc : c.type = .int8) {n : Option Int64} :
    c.Accepts (.ofOption .int8 n) ↔ (c.nullable = false → n.isSome) := by
  cases n with
  | none =>
    refine ⟨fun h hnull => ?_, fun h => ⟨fun _ => ?_, nofun, nofun⟩⟩
    · rw [h.nullable rfl] at hnull
      cases hnull
    · simpa using h
  | some n => exact ⟨fun _ _ => rfl, fun _ => accepts_int8 hc n⟩

theorem accepts_int8Array (hc : c.type = .int8Array) {ns : List Int64} :
    c.Accepts (.int8Array ns) ↔ 20 + 12 * ns.length ≤ Copy.maxLength := by
  have hshort : 20 + 12 * ns.length ≤ Copy.maxLength
      ↔ ∀ p, Copy.payload? (.int8Array ns) = some p → p.length ≤ Copy.maxLength := by
    cases ns with
    | nil => simp [Copy.payload?, Copy.arrayPayload, Copy.maxLength]
    | cons n ns => simp [Copy.payload?, Copy.length_arrayPayload]
  rw [hshort]
  refine ⟨fun h => h.short, fun h => ⟨?_, fun _ => ?_, h⟩⟩
  · rintro ⟨⟩
  · rw [hc]
    rfl

end Column

/-! ## A field that is too long -/

section TooLong

variable {t : Table} {name : String} {fault : EncodingFault} {columns : List Column} {row : Row}

theorem Copy.fieldBytes_of_tooLong {ns : List Int64} (h : maxLength < 20 + 12 * ns.length) :
    fieldBytes (.int8Array ns) = .error (.tooLong (20 + 12 * ns.length)) := by
  cases ns with
  | nil => simp [maxLength] at h
  | cons n ns =>
    rw [← length_arrayPayload] at h ⊢
    exact if_neg (Nat.not_le_of_lt h)

theorem Table.checkFields_of_forall₂
    (h : List.Forall₂ (fun c v => Copy.checkField c v = .ok ()) columns row) :
    t.checkFields columns row = .ok () := by
  induction h with
  | nil => rfl
  | cons hv _ ih => exact bind_eq_ok.2 ⟨(), mapError_eq_ok.2 hv, ih⟩

/-- Where all fields that cannot be written are in columns of one name and have one fault, this is the
error. -/
theorem Table.encodeFields_eq_error
    (h : List.Forall₂ (fun c v => (∃ bytes, Copy.fieldBytes v = .ok bytes)
      ∨ c.name = name ∧ Copy.fieldBytes v = .error fault) columns row)
    (hfault : ∃ v ∈ row, Copy.fieldBytes v = .error fault) :
    t.encodeFields columns row = .error (t.encodingFailure name fault) := by
  induction h with
  | nil => simp at hfault
  | @cons c v columns row hv _ ih =>
    rw [encodeFields, bind_eq_error]
    rcases hv with ⟨bytes, hbytes⟩ | ⟨rfl, hv⟩
    · have hrest : ∃ v ∈ row, Copy.fieldBytes v = .error fault := by simpa [hbytes] using hfault
      exact .inr ⟨bytes, mapError_eq_ok.2 hbytes, bind_eq_error.2 (.inl (ih hrest))⟩
    · rw [hv]
      exact .inl rfl

end TooLong

namespace AggregateSchema

variable {t : AggregateSchema} {a : Aggregate} {row : Row} {name : String} {v : ColumnValue}

/-- The parts of an aggregate, each under the name that it goes by. -/
def parts (t : AggregateSchema) (a : Aggregate) : List (String × ColumnValue) :=
  [(idColumn, .int8 a.id), (stateVersionColumn, .int8 a.stateVersion),
    (t.entityColumn, .ofEntityId a.entity), (t.listColumn, .int8Array a.list.ids)]
    ++ (t.singletonColumn.map fun c => (c, .ofOption .int8 a.singleton)).toList

/-- The names that the parts of aggregates go by. -/
def names (t : AggregateSchema) : List String :=
  [idColumn, stateVersionColumn, t.entityColumn, t.listColumn] ++ t.singletonColumn.toList

/-- Whether the parts of an aggregate go by different names, and the columns have these names and no
others, in any order and each once or more. -/
structure IsProper (t : AggregateSchema) : Prop where
  distinct : t.names.Nodup
  named (name : String) : name ∈ t.table.columnNames ↔ name ∈ t.names

/-- What a layout keeps of an aggregate: all of it, but the singleton only in a column for it. -/
def kept (t : AggregateSchema) (a : Aggregate) : Aggregate :=
  { a with singleton := if t.singletonColumn.isSome then a.singleton else none }

/-- The type of a column for what it holds. -/
def naturalType (t : AggregateSchema) (name : String) : ColumnType :=
  if name = t.listColumn then .int8Array else .int8

/-- Whether each column is of the type for what it holds. -/
def IsTyped (t : AggregateSchema) : Prop :=
  ∀ c ∈ t.table.columns, c.type = t.naturalType c.name

/-- Whether there is a column for the singleton that may not be empty. -/
def NeedsSingleton (t : AggregateSchema) : Prop :=
  ∃ c ∈ t.table.columns, t.singletonColumn = some c.name ∧ c.nullable = false

instance (t : AggregateSchema) : Decidable t.IsProper :=
  decidable_of_iff (t.names.Nodup ∧ (∀ name ∈ t.table.columnNames, name ∈ t.names)
      ∧ ∀ name ∈ t.names, name ∈ t.table.columnNames)
    ⟨fun h => ⟨h.1, fun name => ⟨h.2.1 name, h.2.2 name⟩⟩,
      fun h => ⟨h.distinct, fun name => (h.named name).1, fun name => (h.named name).2⟩⟩

instance (t : AggregateSchema) : Decidable t.IsTyped :=
  inferInstanceAs (Decidable (∀ c ∈ t.table.columns, c.type = t.naturalType c.name))

instance (t : AggregateSchema) : Decidable t.NeedsSingleton :=
  inferInstanceAs (Decidable (∃ c ∈ t.table.columns,
    t.singletonColumn = some c.name ∧ c.nullable = false))

/-! ## Fields by name -/

theorem keys_parts (t : AggregateSchema) (a : Aggregate) : (t.parts a).map (·.1) = t.names := by
  rcases hc : t.singletonColumn with _ | c <;> simp [parts, names, hc]

theorem field_eq (t : AggregateSchema) (a : Aggregate) (name : String) :
    t.field a name = (Dictionary.find? name (t.parts a)).elim
      (.error (.unknownColumn t.table.name name)) .ok := by
  rcases hc : t.singletonColumn with _ | c <;>
    simp only [field, parts, hc, Dictionary.find?, eq_comm, Option.map_none, Option.map_some,
      Option.toList_none, Option.toList_some, List.append_nil, List.cons_append, List.nil_append,
      Option.some.injEq, reduceCtorEq, if_false] <;>
    split_ifs <;> rfl

theorem isOk_field (t : AggregateSchema) (a : Aggregate) (name : String) :
    (t.field a name).isOk = decide (name ∈ t.names) := by
  rw [field_eq, ← keys_parts t a]
  rcases h : Dictionary.find? name (t.parts a) with _ | v
  · rw [decide_eq_false (Dictionary.find?_eq_none_iff.1 h)]
    rfl
  · rw [decide_eq_true (List.mem_map_of_mem (f := (·.1)) (Dictionary.find?_mem h))]
    rfl

theorem field_of_notMem (h : name ∉ t.names) (a : Aggregate) :
    t.field a name = .error (.unknownColumn t.table.name name) := by
  rw [← keys_parts t a] at h
  rw [field_eq, Dictionary.find?_eq_none_iff.2 h]
  rfl

/-- When the parts go by different names, each is the field under its name. -/
theorem field_eq_ok_iff (h : t.names.Nodup) : t.field a name = .ok v ↔ (name, v) ∈ t.parts a := by
  rw [← keys_parts t a] at h
  rw [field_eq, ← Dictionary.find?_eq_some_iff h]
  rcases Dictionary.find? name (t.parts a) with _ | v' <;> simp

/-! ## Writing and reading back -/

/-- A row is written when all columns have names of parts. -/
theorem exists_encode_eq_ok (h : ∀ name ∈ t.table.columnNames, name ∈ t.names) (a : Aggregate) :
    ∃ row, t.encode a = .ok row := by
  rcases he : t.encode a with e | row
  · obtain ⟨c, hc, -⟩ := mapM_eq_error.1 he
    have hnot := List.find?_some hc
    have hname := h c.name (List.mem_map_of_mem (List.mem_of_find?_eq_some hc))
    simp [isOk_field, hname] at hnot
  · exact ⟨row, rfl⟩

/-- The first column with another name is the error. -/
theorem encode_eq_error_iff {e : StoreError} : t.encode a = .error e
    ↔ ∃ c, t.table.columns.find? (·.name ∉ t.names) = some c
      ∧ e = .unknownColumn t.table.name c.name := by
  rw [encode, mapM_eq_error]
  simp only [isOk_field, ← decide_not]
  refine exists_congr fun c => and_congr_right fun hc => ?_
  have hname : c.name ∉ t.names := by simpa using List.find?_some hc
  rw [field_of_notMem hname a]
  exact ⟨fun h => (Except.error.inj h).symm, fun h => congrArg _ h.symm⟩

/-- What stands under a name is its field, also if several columns have the name. -/
theorem fieldAt_of_encode (h : t.encode a = .ok row) (hname : name ∈ t.table.columnNames) :
    t.fieldAt row name = t.field a name := by
  obtain ⟨c, hc, hcname⟩ := List.mem_map.1 hname
  have hpos := List.findIdx?_eq_some_of_exists (p := (·.name = name)) ⟨c, hc, by simpa using hcname⟩
  obtain ⟨hlt, hat, -⟩ := List.findIdx?_eq_some_iff_getElem.1 hpos
  have hrow := mapM_eq_ok.1 h
  have hfield := hrow.get hlt (hrow.length_eq ▸ hlt)
  rw [List.get_eq_getElem, of_decide_eq_true hat] at hfield
  rw [fieldAt, Table.positionOf, hpos, hfield]
  simp [Except.map, Row.at, hrow.length_eq ▸ hlt]

/-- A row is read back as what the layout keeps of the aggregate. -/
theorem decode_of_encode (ht : t.IsProper) (h : t.encode a = .ok row) :
    t.decode row = .ok (t.kept a) := by
  have hfield : ∀ name v, (name, v) ∈ t.parts a → t.fieldAt row name = .ok v := by
    intro name v hpart
    have hname : name ∈ t.names := keys_parts t a ▸ List.mem_map_of_mem (f := (·.1)) hpart
    rw [fieldAt_of_encode h ((ht.named name).2 hname)]
    exact (field_eq_ok_iff ht.distinct).2 hpart
  have hid := hfield idColumn (.int8 a.id) (by simp [parts])
  have hversion := hfield stateVersionColumn (.int8 a.stateVersion) (by simp [parts])
  have hentity := hfield t.entityColumn (.ofEntityId a.entity) (by simp [parts])
  have hlist := hfield t.listColumn (.int8Array a.list.ids) (by simp [parts])
  rcases hc : t.singletonColumn with _ | c
  · simp only [decode, hc, hid, hversion, hentity, hlist, kept]
    rfl
  · have hsingleton := hfield c (.ofOption .int8 a.singleton) (by simp [parts, hc])
    simp only [decode, hc, hid, hversion, hentity, hlist, hsingleton, kept]
    cases a.singleton <;> rfl

/-! ## Writing to a stream -/

theorem field_list (ht : t.IsProper) (a : Aggregate) :
    t.field a t.listColumn = .ok (.int8Array a.list.ids) :=
  (field_eq_ok_iff ht.distinct).2 (by simp [parts])

theorem field_singleton (ht : t.IsProper) (h : t.singletonColumn = some name) (a : Aggregate) :
    t.field a name = .ok (.ofOption .int8 a.singleton) :=
  (field_eq_ok_iff ht.distinct).2 (by simp [parts, h])

section Typed

variable (ht : t.IsProper) (htyped : t.IsTyped)

include ht htyped

/-- A column holds the list, or else it accepts its field unless it needs a singleton. -/
theorem column_cases {c : Column} (hc : c ∈ t.table.columns) (hv : t.field a c.name = .ok v) :
    c.name = t.listColumn ∧ c.type = .int8Array ∧ v = .int8Array a.list.ids
      ∨ c.name ≠ t.listColumn ∧ (c.Accepts v
        ↔ (t.singletonColumn = some c.name → c.nullable = false → a.singleton.isSome)) := by
  have htype := htyped c hc
  by_cases hlist : c.name = t.listColumn
  · rw [hlist, field_list ht] at hv
    exact .inl ⟨hlist, htype.trans (if_pos hlist), (Except.ok.inj hv).symm⟩
  · rw [naturalType, if_neg hlist] at htype
    refine .inr ⟨hlist, ?_⟩
    by_cases hsingleton : t.singletonColumn = some c.name
    · rw [field_singleton ht hsingleton] at hv
      cases hv
      simpa only [hsingleton, forall_const] using Column.accepts_optional_int8 htype
    · obtain ⟨n, rfl⟩ : ∃ n, v = .int8 n := by
        have hpart := (field_eq_ok_iff ht.distinct).1 hv
        simp only [parts, ColumnValue.ofEntityId, List.mem_append, List.mem_cons, Prod.mk.injEq,
          hlist, false_and, List.not_mem_nil, or_false, Option.mem_toList,
          Option.map_eq_some_iff] at hpart
        rcases hpart with (⟨-, hv⟩ | ⟨-, hv⟩ | ⟨-, hv⟩) | ⟨c', hc', hname, -⟩
        · exact ⟨_, hv⟩
        · exact ⟨_, hv⟩
        · exact ⟨_, hv⟩
        · exact absurd (hname ▸ hc') hsingleton
      exact iff_of_true (Column.accepts_int8 htype n) fun h => absurd h hsingleton

variable (h : t.encode a = .ok row)

include h

/-- The row of an aggregate is accepted when it has the singleton that it needs and its list is no
longer than a field may be. -/
theorem accepts_iff : t.table.Accepts row ↔ (t.NeedsSingleton → a.singleton.isSome)
    ∧ 20 + 12 * a.list.size ≤ Copy.maxLength := by
  rw [Table.Accepts, forall₂_iff_of_outcomes (mapM_eq_ok.1 h)]
  constructor
  · refine fun haccepts => ⟨?_, ?_⟩
    · rintro ⟨c, hc, hname, hnull⟩
      have hv := field_singleton ht hname a
      rcases column_cases ht htyped hc hv with ⟨hlist, -, -⟩ | ⟨-, hiff⟩
      · have hdistinct := ht.distinct
        simp [names, hname, hlist] at hdistinct
      · exact hiff.1 (haccepts c hc _ hv) hname hnull
    · obtain ⟨c, hc, hname⟩ := List.mem_map.1 ((ht.named t.listColumn).2 (by simp [names]))
      have htype : c.type = .int8Array := (htyped c hc).trans (if_pos hname)
      exact (Column.accepts_int8Array htype).1 (haccepts c hc _ (hname ▸ field_list ht a))
  · rintro ⟨hsingleton, hshort⟩ c hc v hv
    rcases column_cases ht htyped hc hv with ⟨-, htype, rfl⟩ | ⟨-, hiff⟩
    · exact (Column.accepts_int8Array htype).2 hshort
    · exact hiff.2 fun hname hnull => hsingleton ⟨c, hc, hname, hnull⟩

/-- A row whose list is too long is refused for this, if nothing else is wrong with it. -/
theorem encodeRow_of_tooLong (hsingleton : t.NeedsSingleton → a.singleton.isSome)
    (hlong : Copy.maxLength < 20 + 12 * a.list.size) : t.table.encodeRow row
      = .error (t.table.encodingFailure t.listColumn (.tooLong (20 + 12 * a.list.size))) := by
  have hrow := mapM_eq_ok.1 h
  have htooLong : Copy.fieldBytes (.int8Array a.list.ids)
      = .error (.tooLong (20 + 12 * a.list.size)) := Copy.fieldBytes_of_tooLong hlong
  have hcheck : t.table.checkFields t.table.columns row = .ok () := by
    refine Table.checkFields_of_forall₂ ((forall₂_iff_of_outcomes hrow).2 fun c hc v hv => ?_)
    rcases column_cases ht htyped hc hv with ⟨-, htype, rfl⟩ | ⟨-, hiff⟩
    · exact Copy.checkField_eq_ok.2 ⟨nofun, fun _ => by rw [htype]; rfl⟩
    · have haccepts := hiff.2 fun hname hnull => hsingleton ⟨c, hc, hname, hnull⟩
      exact Copy.checkField_eq_ok.2 ⟨haccepts.nullable, haccepts.typed⟩
  have hfields : t.table.encodeFields t.table.columns row
      = .error (t.table.encodingFailure t.listColumn (.tooLong (20 + 12 * a.list.size))) := by
    refine Table.encodeFields_eq_error
      ((forall₂_iff_of_outcomes hrow).2 fun c hc v hv => ?_) ⟨.int8Array a.list.ids, ?_, htooLong⟩
    · rcases column_cases ht htyped hc hv with ⟨hname, -, rfl⟩ | ⟨-, hiff⟩
      · exact .inr ⟨hname, htooLong⟩
      · have haccepts := hiff.2 fun hname hnull => hsingleton ⟨c, hc, hname, hnull⟩
        exact .inl (Copy.fieldBytes_isOk.2 haccepts.short)
    · obtain ⟨c, hc, hname⟩ := List.mem_map.1 ((ht.named t.listColumn).2 (by simp [names]))
      obtain ⟨v, hmem, hv⟩ := exists_of_forall₂ hrow.flip hc
      rw [hname, field_list ht] at hv
      cases hv
      exact hmem
  have hlen : row.length = t.table.arity := hrow.length_eq.symm
  rw [Table.encodeRow, if_neg (by simpa using hlen)]
  exact bind_eq_error.2 (.inr ⟨(), hcheck, bind_eq_error.2 (.inl hfields)⟩)

end Typed

/-- In a layout whose columns have the names of an aggregate's parts and no others, every aggregate is
written and read back, without the singleton if there is no column for it. If the columns have the
types of what they hold, a stream accepts the row when the singleton is there where it is needed and
the list is no longer than a field may be; else the list is what is refused. In any layout the first
column with another name is the error. -/
theorem encode_roundTrip (t : AggregateSchema) (a : Aggregate) :
    (t.IsProper → ∃ row, t.encode a = .ok row ∧ t.decode row = .ok (t.kept a)
      ∧ (t.IsTyped → ∀ w : BulkStream, w.table = t.table →
        ((∃ w', w.write row = .ok w')
          ↔ (t.NeedsSingleton → a.singleton.isSome) ∧ 20 + 12 * a.list.size ≤ Copy.maxLength)
        ∧ ((t.NeedsSingleton → a.singleton.isSome) → Copy.maxLength < 20 + 12 * a.list.size →
          w.write row
            = .error (t.table.encodingFailure t.listColumn (.tooLong (20 + 12 * a.list.size))))))
    ∧ ∀ e, t.encode a = .error e ↔ ∃ c, t.table.columns.find? (·.name ∉ t.names) = some c
      ∧ e = .unknownColumn t.table.name c.name := by
  refine ⟨fun ht => ?_, fun e => encode_eq_error_iff⟩
  obtain ⟨row, hrow⟩ := exists_encode_eq_ok (fun name => (ht.named name).1) a
  refine ⟨row, hrow, decode_of_encode ht hrow, fun htyped w hw => ⟨?_, fun hsingleton hlong => ?_⟩⟩
  · rw [BulkStream.write_isOk_iff, hw]
    exact accepts_iff ht htyped hrow
  · rw [BulkStream.write, hw, encodeRow_of_tooLong ht htyped hrow hsingleton hlong]
    rfl

/-- A layout with the list in front and columns that are repeated. -/
def shuffled : AggregateSchema where
  table := ⟨"aggregates", [.required "entries" .int8Array, .optional "owner" .int8,
    .required stateVersionColumn .int8, .required idColumn .int8, .required "account" .int8,
    .required "entries" .int8Array, .required idColumn .int8]⟩
  entityColumn := "account"
  listColumn := "entries"
  singletonColumn := some "owner"

/-- An aggregate without a singleton. -/
def ownerless : Aggregate := ⟨5, 7, ⟨3⟩, ⟨[9, 4]⟩, none⟩

/-- The row of `ownerless` in the layout `shuffled`. -/
def ownerlessRow : Row :=
  [.int8Array [9, 4], .null, .int8 7, .int8 5, .int8 3, .int8Array [9, 4], .int8 5]

theorem encode_roundTrip_shuffled : shuffled.IsProper ∧ shuffled.IsTyped
    ∧ (shuffled.NeedsSingleton → ownerless.singleton.isSome)
    ∧ shuffled.encode ownerless = .ok ownerlessRow ∧ shuffled.decode ownerlessRow = .ok ownerless
    ∧ ∃ w, (BulkStream.new shuffled.table).write ownerlessRow = .ok w := by
  have hproper : shuffled.IsProper := by decide
  have htyped : shuffled.IsTyped := by decide
  have hneeds : ¬shuffled.NeedsSingleton := by decide
  obtain ⟨row, hrow, hread, htaken⟩ := (encode_roundTrip shuffled ownerless).1 hproper
  obtain rfl : ownerlessRow = row := Except.ok.inj hrow
  refine ⟨hproper, htyped, fun h => absurd h hneeds, hrow, hread, ?_⟩
  exact (htaken htyped (.new shuffled.table) rfl).1.2 ⟨fun h => absurd h hneeds, by decide⟩

/-- An aggregate whose list is one longer than a field may be. -/
def overlong : Aggregate := { ownerless with list := ⟨List.replicate 178956969 9⟩ }

theorem size_overlong : overlong.list.size = 178956969 := List.length_replicate

/-- The types of the columns and the singleton do not suffice: a list can be too long for a field. -/
theorem not_forall_encode_accepted : ¬∀ (t : AggregateSchema) (a : Aggregate), t.IsProper → t.IsTyped →
    (t.NeedsSingleton → a.singleton.isSome) →
    ∃ row, t.encode a = .ok row ∧ ∃ w, (BulkStream.new t.table).write row = .ok w := by
  intro hall
  have hproper : shuffled.IsProper := by decide
  have htyped : shuffled.IsTyped := by decide
  have hneeds : ¬shuffled.NeedsSingleton := by decide
  obtain ⟨row, hrow, hwritten⟩ := hall shuffled overlong hproper htyped fun h => absurd h hneeds
  have hshort := ((accepts_iff hproper htyped hrow).1 (BulkStream.write_isOk_iff.1 hwritten)).2
  rw [size_overlong] at hshort
  exact absurd hshort (by decide)

end AggregateSchema

end LedgerHistory
