import LedgerHistory.Proofs.Store.Latest

/-!
# What queries mean

A query is valid when it names key columns that its table has, and its keys have a value for each,
empty only where the column may be (`LatestQuery.isValid_iff`). A valid query answers each key with the
most recent of the rows that count for it (`LatestQuery.evaluate_isLatest`), so what else the table
holds, and in which order, is of no account.
-/

namespace LedgerHistory

/-- The number of a `bigint` field. -/
def ColumnValue.number : ColumnValue → Int64
  | .int8 n => n
  | _ => 0

/-- The latest value is told by the values that have the property. -/
theorem Versioned.IsLatest.congr {α : Type} {m : Versioned α} {xs ys : List α} {p : α → Prop}
    (h : ∀ x, p x → (x ∈ xs ↔ x ∈ ys)) : ∀ {r : Option α}, m.IsLatest xs p r → m.IsLatest ys p r
  | none, hl => fun x hx hp => hl x ((h x hp).2 hx) hp
  | some x, hl => ⟨(h x hl.2.1).1 hl.1, hl.2.1, fun y hy hp => hl.2.2 y ((h y hp).2 hy) hp⟩

/-! ## Columns by name -/

namespace Table

variable {t : Table} {name : String}

/-- The position of the first column with a name. -/
def index (t : Table) (name : String) : Nat := t.columns.findIdx (·.name = name)

/-- The field of a row in the column with a name. -/
def field (t : Table) (name : String) (row : Row) : ColumnValue := Row.at row (t.index name)

/-- The state versions and ids of rows. -/
def versioned (t : Table) : Versioned Row :=
  ⟨fun row => (t.field stateVersionColumn row).number, fun row => (t.field idColumn row).number⟩

/-- Whether a table has columns for the ids and the state versions of its rows. -/
structure IsHistory (t : Table) : Prop where
  id : ∃ c, t.column idColumn = .ok c ∧ c.type = .int8
  version : ∃ c, t.column stateVersionColumn = .ok c ∧ c.type = .int8

/-- Whether rows have an id and a state version each, and no two of them the same id. -/
structure Identifies (t : Table) (rows : List Row) : Prop where
  id {row : Row} (h : row ∈ rows) : ∃ n, t.field idColumn row = .int8 n
  version {row : Row} (h : row ∈ rows) : ∃ n, t.field stateVersionColumn row = .int8 n
  distinct : (rows.map (t.field idColumn)).Nodup

theorem Identifies.perm {rows rows' : List Row} (h : t.Identifies rows) (hp : rows'.Perm rows) :
    t.Identifies rows' where
  id hrow := h.id (hp.mem_iff.1 hrow)
  version hrow := h.version (hp.mem_iff.1 hrow)
  distinct := (hp.map _).nodup_iff.2 h.distinct

theorem column_eq_error {e : StoreError} (h : t.column name = .error e) :
    e = .unknownColumn t.name name := by
  unfold column at h
  split at h <;> cases h
  rfl

theorem column_isOk_iff : (∃ c, t.column name = .ok c) ↔ name ∈ t.columnNames := by
  unfold column columnNames
  rw [List.mem_map]
  constructor
  · rintro ⟨c, h⟩
    split at h
    · rename_i hc
      exact ⟨_, List.mem_of_find?_eq_some hc, by simpa using List.find?_some hc⟩
    · cases h
  · rintro ⟨c, hc, rfl⟩
    rcases hf : t.columns.find? (·.name = c.name) with _ | c'
    · exact absurd (List.find?_eq_none.1 hf c hc) (by simp)
    · exact ⟨c', by rw [hf]⟩

/-- What holds of named columns and values holds of the columns found. -/
theorem forall₂_column_iff {names : List String} {columns : List Column} {key : Row}
    (hc : List.Forall₂ (fun name c => t.column name = .ok c) names columns)
    {p : Column → ColumnValue → Prop} :
    List.Forall₂ (fun name v => ∃ c, t.column name = .ok c ∧ p c v) names key
      ↔ List.Forall₂ p columns key := by
  induction hc generalizing key with
  | nil => cases key <;> simp
  | cons h _ ih => cases key <;> simp [h, ih]

theorem positionOf_eq {c : Column} (h : t.column name = .ok c) :
    t.positionOf name = .ok (t.index name) := by
  obtain ⟨c', hc', rfl⟩ := List.mem_map.1 (column_isOk_iff.1 ⟨c, h⟩)
  have hfind : t.columns.findIdx? (·.name = c'.name) = some (t.index c'.name) :=
    List.findIdx?_eq_some_of_exists ⟨c', hc', by simp⟩
  rw [positionOf, hfind]

end Table

/-! ## Valid queries -/

namespace LatestQuery

variable {q : LatestQuery}

structure IsValid (q : LatestQuery) : Prop where
  keyed : q.keyColumns ≠ []
  known {name : String} (h : name ∈ q.keyColumns) : name ∈ q.table.columnNames
  fits {key : Row} (h : key ∈ q.keys) : List.Forall₂ (fun name v => ∃ c, q.table.column name = .ok c
    ∧ (v.hasType c.type ∨ c.nullable ∧ v = .null)) q.keyColumns key

theorem fits_iff {c : Column} {v : ColumnValue} :
    fits c v = true ↔ v.hasType c.type ∨ c.nullable ∧ v = .null := by
  have hnull : v.isNull = true ↔ v = .null := by cases v <;> simp [ColumnValue.isNull]
  rw [fits, Bool.or_eq_true, Bool.and_eq_true, hnull]

theorem checkKey_eq_ok {columns : List Column} {key : Row} : checkKey columns key = .ok ()
    ↔ List.Forall₂ (fun c v => v.hasType c.type ∨ c.nullable ∧ v = .null) columns key := by
  have hfind : (key.zip columns).find? (fun p => !fits p.2 p.1) = none
      ↔ ∀ {c v}, (v, c) ∈ key.zip columns → v.hasType c.type ∨ c.nullable ∧ v = .null := by
    rw [List.find?_eq_none]
    constructor
    · intro h c v hm
      exact fits_iff.1 (by simpa using h _ hm)
    · rintro h ⟨v, c⟩ hm
      simpa using fits_iff.2 (h hm)
  rw [checkKey, ite_error_eq_ok, not_ne_iff]
  constructor
  · rintro ⟨hlen, h⟩
    split at h
    · cases h
    · rename_i hnone
      refine List.Forall₂.flip (List.forall₂_iff_zip.2 ⟨hlen, fun hm => ?_⟩)
      exact hfind.1 hnone hm
  · intro h
    obtain ⟨hlen, hzip⟩ := List.forall₂_iff_zip.1 h.flip
    refine ⟨hlen, ?_⟩
    rw [hfind.2 fun hm => hzip hm]

theorem validColumns_eq : q.validColumns
    = if q.keyColumns = [] then .error (q.malformed .noKeyColumns)
      else q.keyColumns.mapM q.table.column >>= fun columns =>
        (q.keys.forM fun key => (checkKey columns key).mapError q.malformed) >>= fun _ =>
          .ok columns := by
  unfold validColumns
  by_cases h : q.keyColumns = []
  · rw [if_pos h, if_pos (List.isEmpty_iff.2 h)]
    rfl
  · rw [if_neg h, if_neg (mt List.isEmpty_iff.1 h)]
    rfl

theorem validColumns_eq_ok {columns : List Column} : q.validColumns = .ok columns ↔ q.keyColumns ≠ []
    ∧ List.Forall₂ (fun name c => q.table.column name = .ok c) q.keyColumns columns
    ∧ ∀ key ∈ q.keys, checkKey columns key = .ok () := by
  rw [validColumns_eq, ite_error_eq_ok, bind_eq_ok]
  refine and_congr_right fun _ => ⟨?_, ?_⟩
  · rintro ⟨columns, hc, h⟩
    obtain ⟨_, hkeys, h⟩ := bind_eq_ok.1 h
    cases h
    exact ⟨mapM_eq_ok.1 hc, fun key hkey => mapError_eq_ok.1 (forM_eq_ok.1 hkeys key hkey)⟩
  · rintro ⟨hc, hkeys⟩
    exact ⟨columns, mapM_eq_ok.2 hc, bind_eq_ok.2
      ⟨(), forM_eq_ok.2 fun key hkey => mapError_eq_ok.2 (hkeys key hkey), rfl⟩⟩

/-- A query is valid when it passes the checks. -/
theorem isValid_iff : q.IsValid ↔ ∃ columns, q.validColumns = .ok columns := by
  simp only [validColumns_eq_ok]
  constructor
  · intro h
    rcases hc : q.keyColumns.mapM q.table.column with e | columns
    · obtain ⟨name, hname, he⟩ := exists_eq_error_of_mapM hc
      obtain ⟨c, hcol⟩ := Table.column_isOk_iff.2 (h.known hname)
      rw [hcol] at he
      cases he
    · refine ⟨columns, h.keyed, mapM_eq_ok.1 hc, fun key hkey => checkKey_eq_ok.2 ?_⟩
      exact (Table.forall₂_column_iff (mapM_eq_ok.1 hc)).1 (h.fits hkey)
  · rintro ⟨columns, hne, hc, hkeys⟩
    refine ⟨hne, fun hname => ?_, fun hkey => ?_⟩
    · obtain ⟨c, -, hcol⟩ := exists_of_forall₂ hc.flip hname
      exact Table.column_isOk_iff.1 ⟨c, hcol⟩
    · exact (Table.forall₂_column_iff hc).2 (checkKey_eq_ok.1 (hkeys _ hkey))

theorem validColumns_eq_error {e : StoreError} (h : q.validColumns = .error e) :
    (∃ f, e = q.malformed f) ∨ ∃ name ∈ q.keyColumns, e = .unknownColumn q.table.name name := by
  rw [validColumns_eq] at h
  split at h
  · cases h
    exact .inl ⟨_, rfl⟩
  · obtain h | ⟨columns, -, h⟩ := bind_eq_error.1 h
    · obtain ⟨name, hname, h⟩ := exists_eq_error_of_mapM h
      exact .inr ⟨name, hname, Table.column_eq_error h⟩
    · obtain h | ⟨_, -, h⟩ := bind_eq_error.1 h
      · obtain ⟨key, -, h⟩ := exists_eq_error_of_forM h
        rcases hk : checkKey columns key with f | _ <;> rw [hk] at h <;> cases h
        exact .inl ⟨f, rfl⟩
      · cases h

/-! ## Answers -/

/-- Whether a row counts for a key: it has the key in the key columns, and a state version within the
bound. -/
structure Counts (q : LatestQuery) (key row : Row) : Prop where
  key : List.Forall₂ (fun name v => (q.table.field name row).same v) q.keyColumns key
  bound : ∀ b ∈ q.bound, q.table.versioned.version row ≤ b

/-- Where the table keeps what a valid query asks for. -/
def places (q : LatestQuery) : Layout :=
  ⟨q.keyColumns.map q.table.index, q.table.index stateVersionColumn, q.table.index idColumn⟩

theorem layout_eq (ht : q.table.IsHistory) (hq : q.IsValid) : q.layout = .ok q.places := by
  obtain ⟨⟨_, hid, -⟩, _, hversion, -⟩ := ht
  have hkey : q.keyColumns.mapM q.table.positionOf = .ok (q.keyColumns.map q.table.index) := by
    rw [mapM_eq_ok, List.forall₂_map_right_iff, List.forall₂_same]
    intro name hname
    obtain ⟨c, hc⟩ := Table.column_isOk_iff.2 (hq.known hname)
    exact Table.positionOf_eq hc
  rw [layout, hkey, Table.positionOf_eq hversion, Table.positionOf_eq hid]
  rfl

theorem places_of_identifies {rows : List Row} (h : q.table.Identifies rows) :
    q.places.Places q.table.versioned id rows := by
  intro row hrow
  obtain ⟨v, hv⟩ := h.version hrow
  obtain ⟨i, hi⟩ := h.id hrow
  simp only [Table.versioned, hv, hi]
  exact ⟨hv, hi⟩

theorem within_iff {bound : Option Int64} {v : Int64} : within bound v = true ↔ ∀ b ∈ bound, v ≤ b := by
  cases bound <;> simp [within]

/-- The rows that the evaluation goes by are those that count. -/
theorem hasKey_and_within_iff {key row : Row} (hlen : q.keyColumns.length = key.length) :
    (q.places.hasKey key row && within q.bound (q.table.versioned.version row)) = true
      ↔ q.Counts key row := by
  have hkey : q.places.hasKey key row = true
      ↔ List.Forall₂ (fun name v => (q.table.field name row).same v) q.keyColumns key := by
    rw [Layout.hasKey, places]
    generalize q.keyColumns = names at hlen
    induction names generalizing key with
    | nil => cases key <;> simp_all
    | cons name names ih =>
      cases key with
      | nil => cases hlen
      | cons v key =>
        rw [List.forall₂_cons, ← ih (Nat.succ.inj hlen), List.map_cons, List.zip_cons_cons,
          List.all_cons, Bool.and_eq_true]
        rfl
  rw [Bool.and_eq_true, hkey, within_iff]
  exact ⟨fun h => ⟨h.1, h.2⟩, fun h => ⟨h.key, h.bound⟩⟩

theorem validate_of_isValid (hq : q.IsValid) : ∃ types, q.validate = .ok types := by
  obtain ⟨columns, hc⟩ := isValid_iff.1 hq
  exact ⟨_, map_eq_ok.2 ⟨columns, hc, rfl⟩⟩

/-- A query that is not valid is refused, whatever the rows are. -/
theorem refused_of_not_isValid (hq : ¬q.IsValid) :
    ∃ e, ((∃ f, e = q.malformed f) ∨ ∃ name ∈ q.keyColumns, e = .unknownColumn q.table.name name)
      ∧ q.validate = .error e ∧ ∀ rows, q.evaluate rows = .error e := by
  rcases h : q.validColumns with e | columns
  · have hv : q.validate = .error e := by rw [validate, h]; rfl
    exact ⟨e, validColumns_eq_error h, hv, fun rows => by rw [evaluate, hv]; rfl⟩
  · exact absurd (isValid_iff.2 ⟨columns, h⟩) hq

section Rows

variable {rows rows' : List Row} (ht : q.table.IsHistory)

include ht

/-- A valid query answers each key with the most recent of the rows that count for it. -/
theorem evaluate_isLatest (hq : q.IsValid) (h : q.table.Identifies rows) : ∃ answers,
    List.Forall₂ (fun key answer => q.table.versioned.IsLatest rows (q.Counts key) answer) q.keys
      answers
    ∧ q.evaluate rows = .ok (answers.filterMap id)
    ∧ ∀ s : Snapshot, s.rows q.table.name = rows → s.latest q = .ok (answers.filterMap id) := by
  have hids : rows.map (q.table.field idColumn)
      = (rows.map q.table.versioned.id).map ColumnValue.int8 := by
    rw [List.map_map]
    exact List.map_congr_left fun row hrow => (places_of_identifies h row hrow).2
  obtain ⟨ranked, hr⟩ := q.table.versioned.exists_ranks (List.Nodup.of_map _ (hids ▸ h.distinct))
  obtain ⟨types, hv⟩ := validate_of_isValid hq
  have hl := layout_eq ht hq
  have hp := places_of_identifies h
  let answer (key : Row) : Option Row :=
    (q.places.matching q.table.versioned id q.bound key ranked).getLast?
  have hanswers : (q.keys.map answer).filterMap id = (q.keys.filterMap answer).map id := by
    rw [List.filterMap_map, List.map_id]
    rfl
  refine ⟨q.keys.map answer, ?_, ?_, fun s hs => ?_⟩
  · rw [List.forall₂_map_right_iff, List.forall₂_same]
    intro key hkey
    have hcounts : q.Counts key = fun row =>
        (q.places.hasKey key row && within q.bound (q.table.versioned.version row)) = true :=
      funext fun row => propext (hasKey_and_within_iff (hq.fits hkey).length_eq).symm
    rw [hcounts]
    exact hr.isLatest _
  · have he := evaluate_eq hv hl hp hr
    rw [List.map_id] at he
    rw [he, hanswers]
  · rw [Snapshot.latest_eq hv hl hp hr (hs.trans (List.map_id rows).symm), hanswers]

/-- Rows that count for no key are of no account, nor is the order of the rows. -/
theorem evaluate_congr (h : q.table.Identifies rows) (h' : q.table.Identifies rows')
    (hagree : ∀ key ∈ q.keys, ∀ row, q.Counts key row → (row ∈ rows ↔ row ∈ rows')) :
    q.evaluate rows = q.evaluate rows' := by
  by_cases hq : q.IsValid
  · obtain ⟨answers, hlatest, he, -⟩ := evaluate_isLatest ht hq h
    obtain ⟨answers', hlatest', he', -⟩ := evaluate_isLatest ht hq h'
    have hsame : List.Forall₂ (fun key answer =>
        q.table.versioned.IsLatest rows (q.Counts key) answer) q.keys answers' :=
      (forall₂_mem hlatest').imp fun key _ ⟨hkey, _, hl⟩ =>
        hl.congr fun row hrow => (hagree key hkey row hrow).symm
    have hunique : Relator.RightUnique fun key answer =>
        q.table.versioned.IsLatest rows (q.Counts key) answer := fun _ _ _ hl hl' => hl.unique hl'
    rw [he, he', hunique.forall₂ hlatest hsame]
  · obtain ⟨e, -, -, he⟩ := refused_of_not_isValid hq
    rw [he, he]

/-- What a query comes to over rows that have distinct ids and state versions. If it is valid, each key
is answered in turn by the row with the greatest state version and id of those that count for it, or by
none if none counts; if it is not, it is refused. The order of the rows is of no account, nor are rows
that count for no key, and the store answers out of the rows that it has of the table. -/
theorem evaluate_characterized (h : q.table.Identifies rows) :
    (q.IsValid → ∃ answers, List.Forall₂ (fun key answer =>
        q.table.versioned.IsLatest rows (q.Counts key) answer) q.keys answers
      ∧ q.evaluate rows = .ok (answers.filterMap id))
    ∧ ((∃ f, q.evaluate rows = .error (.malformedQuery q.table.name f))
      ∨ (∃ name ∈ q.keyColumns, q.evaluate rows = .error (.unknownColumn q.table.name name))
        ↔ ¬q.IsValid)
    ∧ (∀ rows', rows'.Perm rows → q.evaluate rows' = q.evaluate rows)
    ∧ (∀ rows', q.table.Identifies rows' → (∀ key ∈ q.keys, ∀ row, q.Counts key row →
      (row ∈ rows' ↔ row ∈ rows)) → q.evaluate rows' = q.evaluate rows)
    ∧ ∀ s : Snapshot, s.rows q.table.name = rows → s.latest q = q.evaluate rows := by
  refine ⟨fun hq => ?_, ⟨?_, fun hq => ?_⟩, fun rows' hp => ?_, fun rows' h' => evaluate_congr ht h' h,
    fun s hs => ?_⟩
  · obtain ⟨answers, hlatest, he, -⟩ := evaluate_isLatest ht hq h
    exact ⟨answers, hlatest, he⟩
  · intro hrefused hq
    obtain ⟨answers, -, he, -⟩ := evaluate_isLatest ht hq h
    rw [he] at hrefused
    simp at hrefused
  · obtain ⟨e, ⟨f, rfl⟩ | ⟨name, hname, rfl⟩, -, he⟩ := refused_of_not_isValid hq
    · exact .inl ⟨f, he rows⟩
    · exact .inr ⟨name, hname, he rows⟩
  · exact evaluate_congr ht (h.perm hp) h fun _ _ _ _ => hp.mem_iff
  · by_cases hq : q.IsValid
    · obtain ⟨answers, -, he, hlatest⟩ := evaluate_isLatest ht hq h
      rw [he, hlatest s hs]
    · obtain ⟨e, -, hv, he⟩ := refused_of_not_isValid hq
      rw [he, Snapshot.latest]
      split
      · exact he _
      · rw [hv]
        rfl

end Rows

/-- A table of badges that accounts hold. -/
def badges : Table := ⟨"badges", [.required "id" .int8, .required "from_state_version" .int8,
  .required "account" .int8, .optional "badge" .text]⟩

/-- Asks twice for what account 7 held without a badge at state version 15, and for one that it never
held. -/
def badgeQuery : LatestQuery := ⟨badges, ["account", "badge"],
  [[.int8 7, .null], [.int8 7, .null], [.int8 8, .text "a"]], some 15⟩

/-- Rows of account 7, two of them within the bound. -/
def badgeRows : List Row := [[.int8 2, .int8 15, .int8 7, .null], [.int8 1, .int8 15, .int8 7, .null],
  [.int8 3, .int8 20, .int8 7, .null], [.int8 4, .int8 15, .int8 7, .text "a"]]

theorem evaluate_characterized_sample : badges.IsHistory ∧ badges.Identifies badgeRows
    ∧ badgeQuery.IsValid
    ∧ (∀ rows, rows.Perm badgeRows → badgeQuery.evaluate rows
      = .ok [[.int8 2, .int8 15, .int8 7, .null], [.int8 2, .int8 15, .int8 7, .null]]) := by
  have ht : badges.IsHistory := ⟨⟨_, rfl, rfl⟩, ⟨_, rfl, rfl⟩⟩
  have h : badges.Identifies badgeRows := by
    refine ⟨?_, ?_, by decide⟩ <;> intro row hrow <;>
      simp only [badgeRows, List.mem_cons, List.not_mem_nil, or_false] at hrow <;>
      rcases hrow with rfl | rfl | rfl | rfl <;> exact ⟨_, rfl⟩
  have hq : badgeQuery.IsValid := isValid_iff.2 ⟨_, rfl⟩
  obtain ⟨-, -, hperm, -, -⟩ := evaluate_characterized (q := badgeQuery) ht h
  exact ⟨ht, h, hq, fun rows hrows => (hperm rows hrows).trans (by decide)⟩

end LatestQuery

end LedgerHistory
