import LedgerHistory.Proofs.Store.Payloads

/-!
# The grammar of bulk-load streams

What a stream of rows is, told without a reader: the signature, no flags, an extension of any bytes,
a tuple for each row and the trailer (`Copy.IsStream`). The reader accepts just the streams of this
grammar, with the rows that they stand for (`Copy.decode_eq_ok`); what is wrong with any other it
finds inside of it (`Copy.offset_le_of_decode`).
-/

namespace LedgerHistory

namespace Copy

/-! ## What streams are -/

/-- The fields of the values of a column type: an empty one, or a payload behind its length. -/
inductive IsField : ColumnType → List UInt8 → ColumnValue → Prop
  | null (type : ColumnType) : IsField type (Bytes.ofInt32 nullLength) .null
  | value {type : ColumnType} {length : Int32} {payload : List UInt8} {v : ColumnValue}
      (hl : length.toInt = payload.length) (h : IsPayload type payload v) :
    IsField type (Bytes.ofInt32 length ++ payload) v

/-- The fields of rows, one for each column. -/
inductive IsFields : List Column → List UInt8 → Row → Prop
  | nil : IsFields [] [] []
  | cons {c : Column} {cs : List Column} {field fields : List UInt8} {v : ColumnValue} {vs : Row}
      (h : IsField c.type field v) (hs : IsFields cs fields vs) :
    IsFields (c :: cs) (field ++ fields) (v :: vs)

/-- The tuples of rows: the number of columns and the fields. -/
inductive IsTuple (columns : List Column) : List UInt8 → Row → Prop
  | mk {count : Int16} {fields : List UInt8} {row : Row} (hc : count.toInt = columns.length)
      (h : IsFields columns fields row) : IsTuple columns (Bytes.ofInt16 count ++ fields) row

/-- The streams of rows. -/
inductive IsStream (columns : List Column) : List UInt8 → List Row → Prop
  | mk {length : Int32} {extension : List UInt8} {tuples : List (List UInt8)} {rows : List Row}
      (hl : length.toInt = extension.length) (h : List.Forall₂ (IsTuple columns) tuples rows) :
    IsStream columns (signature ++ Bytes.ofInt32 0 ++ (Bytes.ofInt32 length ++ extension)
      ++ tuples.flatten ++ trailer) rows

/-! ## Fields -/

/-- A length that is not negative counts bytes. -/
theorem toInt_eq_natCast {length : Int32} {n : Nat} :
    length.toInt = n ↔ ¬length < 0 ∧ n = length.toInt.toNat := by
  rw [Int32.lt_iff_toInt_lt, Int32.toInt_zero]
  omega

/-- What follows the length of a field. -/
def decodeBehind (type : ColumnType) (length : Int32) (c : Cursor) :
    Except Corruption (ColumnValue × Cursor) :=
  if length = nullLength then .ok (.null, c)
  else if length < 0 then c.fail (.badFieldLength length)
  else c.take length.toInt.toNat >>= fun p =>
    decodePayload type c.offset p.1 >>= fun v => .ok (v, p.2)

theorem reads_behind (limit : Nat) (type : ColumnType) (length : Int32) :
    Reads limit (fun bytes v => length = nullLength ∧ bytes = [] ∧ v = .null
      ∨ length.toInt = bytes.length ∧ IsPayload type bytes v) (decodeBehind type length) := by
  refine (Reads.ite (fun _ => reads_done limit ColumnValue.null) fun _ =>
    Reads.ite (fun _ => reads_fail limit (.badFieldLength length)) fun _ =>
      reads_payload limit type length.toInt.toNat).congr fun bytes v => ⟨?_, ?_⟩
  · rintro (h | ⟨_, ⟨_, h⟩ | ⟨hneg, hlen, hv⟩⟩)
    · exact .inl h
    · exact h.elim
    · exact .inr ⟨toInt_eq_natCast.2 ⟨hneg, hlen⟩, hv⟩
  · rintro (h | ⟨hlen, hv⟩)
    · exact .inl h
    · have hnull : length ≠ nullLength := by
        rintro rfl
        exact absurd hlen (by simp [nullLength])
      obtain ⟨hneg, hlen⟩ := toInt_eq_natCast.1 hlen
      exact .inr ⟨hnull, .inr ⟨hneg, hlen, hv⟩⟩

theorem reads_field (limit : Nat) (type : ColumnType) :
    Reads limit (IsField type) (decodeField type) := by
  refine ((reads_int32 limit).bind fun _ length _ => reads_behind _ type length).congr
    fun bytes v => ⟨?_, fun h => ?_⟩
  · rintro ⟨_, length, back, rfl, rfl, ⟨rfl, rfl, rfl⟩ | ⟨hlen, hv⟩⟩
    · rw [List.append_nil]
      exact .null type
    · exact .value hlen hv
  · cases h with
    | null => exact ⟨_, _, [], (List.append_nil _).symm, rfl, .inl ⟨rfl, rfl, rfl⟩⟩
    | value hlen hv => exact ⟨_, _, _, rfl, rfl, .inr ⟨hlen, hv⟩⟩

theorem reads_fields (limit : Nat) (columns : List Column) :
    Reads limit (IsFields columns) (decodeFields columns) := by
  induction columns generalizing limit with
  | nil =>
    refine (reads_done limit ([] : Row)).congr fun bytes row => ⟨?_, fun h => ?_⟩
    · rintro ⟨rfl, rfl⟩
      exact .nil
    · cases h
      exact ⟨rfl, rfl⟩
  | cons c columns ih =>
    refine ((reads_field limit c.type).bind fun _ v _ => (ih _).bind fun _ vs _ =>
      reads_done _ (v :: vs)).congr fun bytes row => ⟨?_, fun h => ?_⟩
    · rintro ⟨field, v, _, rfl, hv, fields, vs, _, rfl, hvs, rfl, rfl⟩
      rw [List.append_nil]
      exact .cons hv hvs
    · cases h with
      | cons hv hvs =>
        exact ⟨_, _, _, rfl, hv, _, _, _, (List.append_nil _).symm, hvs, rfl, rfl⟩

/-! ## Tuples -/

/-- The tuples of rows with the trailer behind them. -/
def IsBody (columns : List Column) (bytes : List UInt8) (rows : List Row) : Prop :=
  ∃ tuples, bytes = tuples.flatten ++ trailer ∧ List.Forall₂ (IsTuple columns) tuples rows

theorem ofInt16_append_inj {m n : Int16} {bytes bytes' : List UInt8}
    (h : Bytes.ofInt16 m ++ bytes = Bytes.ofInt16 n ++ bytes') : m = n ∧ bytes = bytes' := by
  obtain ⟨hcount, hrest⟩ := List.append_inj h (by simp)
  have hwords := congrArg Bytes.toInt16 hcount
  rw [Bytes.toInt16_ofInt16, Bytes.toInt16_ofInt16] at hwords
  exact ⟨hwords, hrest⟩

theorem exists_count_of_isBody {columns : List Column} {bytes : List UInt8} {rows : List Row}
    (h : IsBody columns bytes rows) : ∃ count rest, bytes = Bytes.ofInt16 count ++ rest := by
  obtain ⟨_, rfl, _ | ⟨⟨_, _⟩, _⟩⟩ := h
  · exact ⟨trailerMark, [], rfl⟩
  · exact ⟨_, _, by rw [List.flatten_cons, List.append_assoc, List.append_assoc]⟩

/-- A body is the trailer, or begins with a tuple. -/
theorem isBody_iff {columns : List Column} {count : Int16} {bytes : List UInt8} {rows : List Row} :
    IsBody columns (Bytes.ofInt16 count ++ bytes) rows
      ↔ count = trailerMark ∧ bytes = [] ∧ rows = []
        ∨ count.toInt = columns.length ∧ ∃ fields row body rest, bytes = fields ++ body
          ∧ IsFields columns fields row ∧ IsBody columns body rest ∧ rows = row :: rest := by
  constructor
  · rintro ⟨tuples, he, h⟩
    cases h with
    | nil =>
      have htrailer : Bytes.ofInt16 count ++ bytes = Bytes.ofInt16 trailerMark ++ [] := by
        rw [he, List.append_nil]
        rfl
      obtain ⟨rfl, rfl⟩ := ofInt16_append_inj htrailer
      exact .inl ⟨rfl, rfl, rfl⟩
    | cons htuple hrows =>
      obtain ⟨hc, hrow⟩ := htuple
      rw [List.flatten_cons, List.append_assoc, List.append_assoc] at he
      obtain ⟨rfl, rfl⟩ := ofInt16_append_inj he
      exact .inr ⟨hc, _, _, _, _, rfl, hrow, ⟨_, rfl, hrows⟩, rfl⟩
  · rintro (⟨rfl, rfl, rfl⟩ | ⟨hc, fields, row, _, rest, rfl, hrow, ⟨tuples, rfl, hrows⟩, rfl⟩)
    · exact ⟨[], by rw [List.append_nil]; rfl, .nil⟩
    · refine ⟨(Bytes.ofInt16 count ++ fields) :: tuples, ?_, .cons ⟨hc, hrow⟩ hrows⟩
      rw [List.flatten_cons, List.append_assoc, List.append_assoc]

theorem trailerMark_ne {count : Int16} {columns : List Column} (h : count.toInt = columns.length) :
    count ≠ trailerMark := by
  rintro rfl
  exact absurd h (by simp [trailerMark])

/-- What follows the number of fields of a tuple, with a reader of the tuples behind it. -/
def decodeCounted (columns : List Column) (read : Cursor → Except Corruption (List Row × Cursor))
    (count : Int16) (c : Cursor) : Except Corruption (List Row × Cursor) :=
  if count = trailerMark then .ok ([], c)
  else if count.toInt ≠ columns.length then c.fail (.wrongFieldCount columns.length count)
  else decodeFields columns c >>= fun p => read p.2 >>= fun q => .ok (p.1 :: q.1, q.2)

theorem reads_counted {limit : Nat} {columns : List Column}
    {read : Cursor → Except Corruption (List Row × Cursor)}
    (h : Reads limit (IsBody columns) read) (count : Int16) :
    Reads limit (fun bytes rows => IsBody columns (Bytes.ofInt16 count ++ bytes) rows)
      (decodeCounted columns read count) := by
  refine (Reads.ite (fun _ => reads_done limit ([] : List Row)) fun _ =>
    Reads.ite (fun _ => reads_fail limit (.wrongFieldCount columns.length count)) fun _ =>
      (reads_fields limit columns).bind fun _ row _ => (h.mono (Nat.sub_le _ _)).bind
        fun _ rest _ => reads_done _ (row :: rest)).congr fun bytes rows => ?_
  rw [isBody_iff]
  constructor
  · rintro (h | ⟨_, ⟨_, h⟩ | ⟨hc, fields, row, _, rfl, hrow, body, rest, _, rfl, hrest, rfl, rfl⟩⟩)
    · exact .inl h
    · exact h.elim
    · rw [List.append_nil]
      exact .inr ⟨not_ne_iff.1 hc, fields, row, body, rest, rfl, hrow, hrest, rfl⟩
  · rintro (h | ⟨hc, fields, row, body, rest, rfl, hrow, hrest, rfl⟩)
    · exact .inl h
    · exact .inr ⟨trailerMark_ne hc, .inr ⟨not_ne_iff.2 hc, fields, row, _, rfl, hrow, body, rest, [],
        (List.append_nil _).symm, hrest, rfl, rfl⟩⟩

/-- With as much fuel as the stream is shorter than, the tuples are read to the trailer. -/
theorem reads_tuples (columns : List Column) (fuel : Nat) :
    Reads fuel (IsBody columns) (decodeTuples columns fuel) := by
  induction fuel with
  | zero =>
    exact ⟨fun hc => absurd hc (Nat.not_lt_zero _), fun hl => absurd hl (Nat.not_lt_zero _),
      fun hl => absurd hl (Nat.not_lt_zero _), fun hc => absurd hc (Nat.not_lt_zero _)⟩
  | succ fuel ih =>
    refine ((reads_int16 (fuel + 1)).bind fun front count hcount =>
      reads_counted (ih.mono ?_) count).congr fun bytes rows => ⟨?_, fun h => ?_⟩
    · -- the number of fields alone takes two bytes, so there is fuel enough for what follows
      rw [hcount, Bytes.length_ofInt16]
      omega
    · rintro ⟨_, count, back, rfl, rfl, h⟩
      exact h
    · obtain ⟨count, rest, rfl⟩ := exists_count_of_isBody h
      exact ⟨_, count, rest, rfl, rfl, h⟩

/-! ## Headers -/

/-- The extension of a header, behind its length. -/
def IsExtension (bytes : List UInt8) : Prop :=
  ∃ (length : Int32) (extension : List UInt8), length.toInt = extension.length
    ∧ bytes = Bytes.ofInt32 length ++ extension

/-- What stands in front of the tuples. -/
def IsHeader (bytes : List UInt8) : Prop :=
  ∃ extension, IsExtension extension ∧ bytes = signature ++ (Bytes.ofInt32 0 ++ extension)

/-- Reads the extension of a header. -/
def decodeExtension (c : Cursor) : Except Corruption (Unit × Cursor) :=
  c.int32 >>= fun p => if p.1 < 0 then p.2.fail .negativeExtension
    else p.2.take p.1.toInt.toNat >>= fun q => .ok ((), q.2)

/-- Reads what follows the signature. -/
def decodeFlags (c : Cursor) : Except Corruption (Unit × Cursor) :=
  c.int32 >>= fun p => if p.1 ≠ 0 then p.2.fail (.unsupportedFlags p.1) else decodeExtension p.2

theorem reads_extension (limit : Nat) :
    Reads limit (fun bytes (_ : Unit) => IsExtension bytes) decodeExtension := by
  refine ((reads_int32 limit).bind fun _ (length : Int32) _ => Reads.ite (p := length < 0)
    (fun _ => reads_fail _ .negativeExtension) fun _ =>
      (reads_take _ length.toInt.toNat).bind fun _ _ _ => reads_done _ ()).congr
    fun bytes _ => ⟨?_, ?_⟩
  · rintro ⟨_, length, _, rfl, rfl, ⟨_, h⟩ | ⟨hneg, extension, _, _, rfl, ⟨hlen, _⟩, rfl, _⟩⟩
    · exact h.elim
    · exact ⟨length, extension, toInt_eq_natCast.2 ⟨hneg, hlen⟩, by rw [List.append_nil]⟩
  · rintro ⟨length, extension, hlen, rfl⟩
    obtain ⟨hneg, hlen⟩ := toInt_eq_natCast.1 hlen
    exact ⟨_, length, _, rfl, rfl, .inr ⟨hneg, extension, _, [], (List.append_nil _).symm,
      ⟨hlen, rfl⟩, rfl, rfl⟩⟩

theorem reads_flags (limit : Nat) : Reads limit (fun bytes (_ : Unit) =>
    ∃ extension, IsExtension extension ∧ bytes = Bytes.ofInt32 0 ++ extension) decodeFlags := by
  refine ((reads_int32 limit).bind fun _ (flags : Int32) _ => Reads.ite (p := flags ≠ 0)
    (fun _ => reads_fail _ (.unsupportedFlags flags)) fun _ => reads_extension _).congr
    fun bytes _ => ⟨?_, ?_⟩
  · rintro ⟨_, flags, extension, rfl, rfl, ⟨_, h⟩ | ⟨hflags, h⟩⟩
    · exact h.elim
    · exact ⟨extension, h, by rw [not_ne_iff.1 hflags]⟩
  · rintro ⟨extension, h, rfl⟩
    exact ⟨_, 0, extension, rfl, rfl, .inr ⟨not_ne_iff.2 rfl, h⟩⟩

theorem map_decodeHeader (c : Cursor) : (decodeHeader c).map (fun c => ((), c))
    = c.take signature.length >>= fun p =>
      if p.1 ≠ signature then p.2.fail .badSignature else decodeFlags p.2 := by
  unfold decodeHeader decodeFlags decodeExtension
  rcases c.take signature.length with e | ⟨front, c⟩
  · rfl
  by_cases hfront : front ≠ signature
  · simp only [bind, Except.bind, if_pos hfront]
    rfl
  simp only [bind, Except.bind, if_neg hfront]
  rcases c.int32 with e | ⟨flags, c⟩
  · rfl
  by_cases hflags : flags ≠ 0
  · simp only [if_pos hflags]
    rfl
  simp only [if_neg hflags]
  rcases c.int32 with e | ⟨length, c⟩
  · rfl
  by_cases hlength : length < 0
  · simp only [if_pos hlength]
    rfl
  simp only [if_neg hlength]
  rcases c.take length.toInt.toNat with e | ⟨extension, c⟩ <;> rfl

theorem reads_header (limit : Nat) : Reads limit (fun bytes (_ : Unit) => IsHeader bytes)
    fun c => (decodeHeader c).map fun c => ((), c) := by
  rw [funext map_decodeHeader]
  refine ((reads_take limit signature.length).bind fun _ (front : List UInt8) _ =>
    Reads.ite (p := front ≠ signature) (fun _ => reads_fail _ .badSignature) fun _ =>
      reads_flags _).congr fun bytes _ => ⟨?_, ?_⟩
  · rintro ⟨_, _, _, rfl, ⟨hlen, rfl⟩, ⟨_, h⟩ | ⟨hsignature, extension, h, rfl⟩⟩
    · exact h.elim
    · exact ⟨extension, h, by rw [not_ne_iff.1 hsignature]⟩
  · rintro ⟨extension, h, rfl⟩
    exact ⟨signature, _, _, rfl, ⟨rfl, rfl⟩, .inr ⟨not_ne_iff.2 rfl, extension, h, rfl⟩⟩

/-! ## Streams -/

theorem isStream_iff {columns : List Column} {bytes : List UInt8} {rows : List Row} :
    IsStream columns bytes rows
      ↔ ∃ header body, bytes = header ++ body ∧ IsHeader header ∧ IsBody columns body rows := by
  constructor
  · rintro ⟨hl, h⟩
    refine ⟨_, _, ?_, ⟨_, ⟨_, _, hl, rfl⟩, rfl⟩, ⟨_, rfl, h⟩⟩
    simp only [List.append_assoc]
  · rintro ⟨_, _, rfl, ⟨_, ⟨length, extension, hl, rfl⟩, rfl⟩, tuples, rfl, h⟩
    have hstream := IsStream.mk hl h
    simpa only [List.append_assoc] using hstream

/-- Reads a stream, and leaves what follows it. -/
def decodeAll (columns : List Column) (c : Cursor) : Except Corruption (List Row × Cursor) :=
  decodeHeader c >>= fun c => decodeTuples columns (c.rest.length + 1) c

theorem decode_eq (columns : List Column) (stream : List UInt8) : decode columns stream
    = decodeAll columns ⟨0, stream⟩ >>= fun p =>
      if p.2.rest ≠ [] then p.2.fail .trailingBytes else .ok p.1 := by
  unfold decode decodeAll
  rcases decodeHeader ⟨0, stream⟩ with e | c <;> rfl

theorem reads_stream (limit : Nat) (columns : List Column) :
    Reads limit (IsStream columns) (decodeAll columns) := by
  have hread : decodeAll columns = fun c => (decodeHeader c).map (fun c => ((), c)) >>= fun p =>
      decodeTuples columns (p.2.rest.length + 1) p.2 := by
    funext c
    unfold decodeAll
    rcases decodeHeader c with e | c <;> rfl
  rw [hread]
  refine ((reads_header limit).bind fun _ _ _ => Reads.of_fuel (reads_tuples columns)).congr
    fun bytes rows => ?_
  rw [isStream_iff]
  constructor
  · rintro ⟨header, _, body, h⟩
    exact ⟨header, body, h⟩
  · rintro ⟨header, body, h⟩
    exact ⟨header, (), body, h⟩

theorem decode_append {columns : List Column} {stream : List UInt8} {rows : List Row}
    (h : IsStream columns stream rows) (more : List UInt8) : decode columns (stream ++ more)
      = if more ≠ [] then .error ⟨stream.length, .trailingBytes⟩ else .ok rows := by
  rw [decode_eq, (reads_stream _ columns).complete (Nat.lt_succ_self _) h 0, Nat.zero_add]
  rfl

/-- A stream is accepted when it is one of the grammar. -/
theorem decode_eq_ok {columns : List Column} {stream : List UInt8} {rows : List Row} :
    decode columns stream = .ok rows ↔ IsStream columns stream rows := by
  constructor
  · intro h
    rw [decode_eq] at h
    obtain ⟨⟨rows', c⟩, hall, h⟩ := bind_eq_ok.1 h
    obtain ⟨bytes, hbytes, hrest, _⟩ := (reads_stream _ columns).sound (Nat.lt_succ_self _) hall
    by_cases hc : c.rest = []
    · rw [if_neg (not_ne_iff.2 hc)] at h
      cases h
      rw [hc, List.append_nil] at hrest
      cases hrest
      exact hbytes
    · rw [if_pos hc] at h
      cases h
  · intro h
    have hd := decode_append h []
    rwa [List.append_nil, if_neg (not_ne_iff.2 rfl)] at hd

theorem offset_le_of_decode {columns : List Column} {stream : List UInt8} {e : Corruption}
    (h : decode columns stream = .error e) : e.offset ≤ stream.length := by
  rw [decode_eq] at h
  rcases bind_eq_error.1 h with h | ⟨⟨rows, c⟩, hall, h⟩
  · have hin := (reads_stream _ columns).inside (Nat.lt_succ_self _) h
    simpa using hin
  · obtain ⟨bytes, _, hrest, hoffset⟩ := (reads_stream _ columns).sound (Nat.lt_succ_self _) hall
    by_cases hc : c.rest = []
    · rw [if_neg (not_ne_iff.2 hc)] at h
      cases h
    · rw [if_pos hc] at h
      cases h
      have hlen : stream.length = bytes.length + c.rest.length := by
        rw [← List.length_append, ← hrest]
      show c.offset ≤ stream.length
      rw [hoffset, hlen, Nat.zero_add]
      exact Nat.le_add_right _ _

end Copy

end LedgerHistory
