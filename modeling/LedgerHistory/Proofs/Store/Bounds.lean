import LedgerHistory.Proofs.Store.Grammar

/-!
# Reading within bounds

A reader that takes bytes out of buffers without asking whether they are there, as a machine would,
and goes round for one tuple after another until a trailer is met, in as many rounds as it is given. It
never asks for more than there is, and ends in no more rounds than the stream has bytes: there it comes
to what the reader of the library comes to (`Copy.Raw.decode_eq`). With the grammar this tells the whole
of reading (`Table.decodeStream_grammar`).
-/

namespace LedgerHistory

namespace Copy.Raw

variable {α β : Type}

/-- What such a reading comes to: nothing at all when it runs over the end of a buffer or out of
rounds. -/
abbrev Attempt (α : Type) : Type := ExceptT Corruption Option α

/-- A reading that comes to an outcome. -/
def sure (outcome : Except Corruption α) : Attempt α := ExceptT.mk (some outcome)

/-- Fails if a condition holds. -/
def refuse (p : Prop) [Decidable p] (e : Corruption) : Attempt Unit :=
  if p then throw e else return ()

/-- The first bytes of a buffer, which must hold as many, and those behind them. -/
def split (n : Nat) (buffer : List UInt8) : Attempt (List UInt8 × List UInt8) :=
  ExceptT.mk (if n ≤ buffer.length then some (.ok (buffer.splitAt n)) else none)

/-- The next four bytes of a buffer as an integer. -/
def int32 (buffer : List UInt8) : Attempt (Int32 × List UInt8) := do
  let (bytes, buffer) ← split 4 buffer
  return (Bytes.toInt32 bytes, buffer)

/-- The next eight bytes of a buffer as an integer. -/
def int64 (buffer : List UInt8) : Attempt (Int64 × List UInt8) := do
  let (bytes, buffer) ← split 8 buffer
  return (Bytes.toInt64 bytes, buffer)

/-- The next bytes of a stream, if it has as many. -/
def take (c : Cursor) (n : Nat) : Attempt (List UInt8 × Cursor) := do
  refuse (c.rest.length < n) ⟨c.offset, .unexpectedEnd⟩
  let (bytes, rest) ← split n c.rest
  return (bytes, ⟨c.offset + n, rest⟩)

/-- The next two bytes of a stream as an integer. -/
def nextInt16 (c : Cursor) : Attempt (Int16 × Cursor) := do
  let (bytes, c) ← take c 2
  let (word, _) ← split 2 bytes
  return (Bytes.toInt16 word, c)

/-- The next four bytes of a stream as an integer. -/
def nextInt32 (c : Cursor) : Attempt (Int32 × Cursor) := do
  let (bytes, c) ← take c 4
  let (word, _) ← int32 bytes
  return (word, c)

def elements (start : Nat) : Nat → List UInt8 → Attempt (List Int64)
  | 0, _ => return []
  | n + 1, buffer => do
    let (length, buffer) ← int32 buffer
    refuse (length ≠ 8) ⟨start, .wrongElementLength⟩
    let (item, buffer) ← int64 buffer
    let items ← elements start n buffer
    return item :: items

/-- The integers of an array of one dimension, behind its header. -/
def arrayBody (start : Nat) (body : List UInt8) : Attempt (List Int64) := do
  refuse (body.length < 8) ⟨start, .shortArrayDimension⟩
  let (count, buffer) ← int32 body
  let (_, buffer) ← int32 buffer
  refuse (count < 0) ⟨start, .negativeArraySize⟩
  refuse (buffer.length ≠ count.toInt.toNat * 12) ⟨start, .wrongArraySize⟩
  elements start count.toInt.toNat buffer

/-- The integers of an array payload. -/
def array (start : Nat) (payload : List UInt8) : Attempt (List Int64) := do
  refuse (payload.length < 12) ⟨start, .shortArrayHeader⟩
  let (dimensions, buffer) ← int32 payload
  let (_, buffer) ← int32 buffer
  let (oid, buffer) ← int32 buffer
  refuse (oid ≠ int8Oid) ⟨start, .wrongElementOid oid⟩
  if dimensions = 0 then return []
  else
    refuse (dimensions ≠ 1) ⟨start, .wrongDimensions dimensions⟩
    arrayBody start buffer

def payload (type : ColumnType) (start : Nat) (bytes : List UInt8) : Attempt ColumnValue :=
  let invalid : Attempt ColumnValue := throw ⟨start, .invalidLength bytes.length type.sqlName⟩
  let text : Attempt String :=
    sure ((Utf8.decode bytes).mapError fun f => ⟨start + bytes.length, .invalidUtf8 f⟩)
  match type with
  | .int8 =>
    if bytes.length = 8 then do
      let (n, _) ← int64 bytes
      return .int8 n
    else invalid
  | .int4 =>
    if bytes.length = 4 then do
      let (n, _) ← int32 bytes
      return .int4 n
    else invalid
  | .bool =>
    if bytes.length = 1 then do
      let (front, _) ← split 1 bytes
      return .bool (front ≠ [0])
    else invalid
  | .text => return .text (← text)
  | .enum _ => return .enum (← text)
  | .bytea => return .bytea bytes
  | .jsonb =>
    if 1 ≤ bytes.length then do
      let (front, bytes) ← split 1 bytes
      refuse (front ≠ [jsonbVersion]) ⟨start, .unsupportedJsonbVersion⟩
      let d ← sure ((documentOf bytes).mapError fun f => ⟨start, f⟩)
      return .jsonb d
    else invalid
  | .int8Array => return .int8Array (← array start bytes)

/-- The next field of a stream. -/
def field (type : ColumnType) (c : Cursor) : Attempt (ColumnValue × Cursor) := do
  let (length, c) ← nextInt32 c
  if length = nullLength then return (.null, c)
  else
    refuse (length < 0) ⟨c.offset, .badFieldLength length⟩
    let (bytes, next) ← take c length.toInt.toNat
    let v ← payload type c.offset bytes
    return (v, next)

/-- The next fields of a stream, one for each column. -/
def fields : List Column → Cursor → Attempt (Row × Cursor)
  | [], c => return ([], c)
  | column :: columns, c => do
    let (v, c) ← field column.type c
    let (vs, c) ← fields columns c
    return (v :: vs, c)

/-- The tuples of a stream up to the trailer, in a number of rounds. -/
def tuples (columns : List Column) : Nat → Cursor → Attempt (List Row × Cursor)
  | 0, _ => ExceptT.mk none
  | rounds + 1, c => do
    let (count, c) ← nextInt16 c
    if count = trailerMark then return ([], c)
    else
      refuse (count.toInt ≠ columns.length) ⟨c.offset, .wrongFieldCount columns.length count⟩
      let (row, c) ← fields columns c
      let (rows, c) ← tuples columns rounds c
      return (row :: rows, c)

def extension (c : Cursor) : Attempt (Unit × Cursor) := do
  let (length, c) ← nextInt32 c
  refuse (length < 0) ⟨c.offset, .negativeExtension⟩
  let (_, c) ← take c length.toInt.toNat
  return ((), c)

/-- What follows the signature in a header. -/
def flags (c : Cursor) : Attempt (Unit × Cursor) := do
  let (flags, c) ← nextInt32 c
  refuse (flags ≠ 0) ⟨c.offset, .unsupportedFlags flags⟩
  extension c

def header (c : Cursor) : Attempt (Unit × Cursor) := do
  let (front, c) ← take c signature.length
  refuse (front ≠ signature) ⟨c.offset, .badSignature⟩
  flags c

/-- The rows of a stream, in a number of rounds. -/
def decode (columns : List Column) (rounds : Nat) (stream : List UInt8) : Attempt (List Row) := do
  let (_, c) ← header ⟨0, stream⟩
  let (rows, c) ← tuples columns rounds c
  refuse (c.rest ≠ []) ⟨c.offset, .trailingBytes⟩
  return rows

/-! ## What a reading comes to -/

@[simp] theorem sure_ok_bind (a : α) (f : α → Attempt β) : (sure (.ok a) >>= f) = f a := rfl

/-- Readings that come to outcomes one after another come to the outcome of both. -/
theorem sure_bind (outcome : Except Corruption α) (f : α → Except Corruption β) :
    (sure outcome >>= fun a => sure (f a)) = sure (outcome >>= f) := by
  cases outcome <;> rfl

@[simp] theorem refuse_bind (p : Prop) [Decidable p] (e : Corruption) (f : Unit → Attempt α) :
    (refuse p e >>= f) = if p then sure (.error e) else f () := by
  unfold refuse
  split <;> rfl

theorem split_eq {n : Nat} {buffer : List UInt8} (h : n ≤ buffer.length) :
    split n buffer = sure (.ok (buffer.take n, buffer.drop n)) := by
  rw [split, if_pos h, List.splitAt_eq]
  rfl

theorem int32_eq {buffer : List UInt8} (h : 4 ≤ buffer.length) :
    int32 buffer = sure (.ok (Bytes.toInt32 (buffer.take 4), buffer.drop 4)) := by
  rw [int32, split_eq h]
  rfl

theorem int64_eq {buffer : List UInt8} (h : 8 ≤ buffer.length) :
    int64 buffer = sure (.ok (Bytes.toInt64 (buffer.take 8), buffer.drop 8)) := by
  rw [int64, split_eq h]
  rfl

theorem take_eq (c : Cursor) (n : Nat) : take c n = sure (c.take n) := by
  simp only [take, refuse_bind, Cursor.take, List.splitAt_eq]
  by_cases h : c.rest.length < n
  · rw [if_pos h, if_neg (by rw [List.length_take]; omega)]
    rfl
  · rw [if_neg h, split_eq (Nat.not_lt.1 h), if_pos (List.length_take_of_le (Nat.not_lt.1 h))]
    rfl

theorem length_of_take {c c' : Cursor} {n : Nat} {bytes : List UInt8}
    (h : c.take n = .ok (bytes, c')) : bytes.length = n := by
  obtain ⟨_, ⟨hlen, rfl⟩, _⟩ := (reads_take _ n).sound (Nat.lt_succ_self _) h
  exact hlen

theorem split_all {n : Nat} {buffer : List UInt8} (h : buffer.length = n) :
    split n buffer = sure (.ok (buffer, [])) := by
  subst h
  rw [split_eq (Nat.le_refl _), List.take_length, List.drop_length]

theorem int32_all {buffer : List UInt8} (h : buffer.length = 4) :
    int32 buffer = sure (.ok (Bytes.toInt32 buffer, [])) := by
  rw [int32, split_all h]
  rfl

theorem int64_all {buffer : List UInt8} (h : buffer.length = 8) :
    int64 buffer = sure (.ok (Bytes.toInt64 buffer, [])) := by
  rw [int64, split_all h]
  rfl

theorem nextInt16_eq (c : Cursor) : nextInt16 c = sure c.int16 := by
  rw [nextInt16, Cursor.int16, take_eq]
  rcases h : c.take 2 with e | ⟨bytes, c'⟩
  · rfl
  · simp only [sure_ok_bind, split_all (length_of_take h)]
    rfl

theorem nextInt32_eq (c : Cursor) : nextInt32 c = sure c.int32 := by
  rw [nextInt32, Cursor.int32, take_eq]
  rcases h : c.take 4 with e | ⟨bytes, c'⟩
  · rfl
  · simp only [sure_ok_bind, int32_all (length_of_take h)]
    rfl

theorem elements_eq {start n : Nat} {buffer : List UInt8} (h : buffer.length = n * 12) :
    elements start n buffer = sure ((arrayElements n buffer).mapError (⟨start, ·⟩)) := by
  induction n generalizing buffer with
  | zero => rfl
  | succ n ih =>
    have hframe : 4 ≤ buffer.length := by omega
    have hword : 8 ≤ (buffer.drop 4).length := by rw [List.length_drop]; omega
    have htail : (buffer.drop 12).length = n * 12 := by rw [List.length_drop]; omega
    unfold elements arrayElements
    simp only [int32_eq hframe, int64_eq hword, sure_ok_bind, refuse_bind, List.drop_drop, ih htail]
    split
    · rfl
    · rcases arrayElements n (buffer.drop 12) with e | ns <;> rfl

theorem arrayBody_eq (start : Nat) (body : List UInt8) :
    arrayBody start body = sure ((Copy.arrayBody body).mapError (⟨start, ·⟩)) := by
  unfold arrayBody Copy.arrayBody
  rw [refuse_bind]
  split
  · rfl
  · have hcount : 4 ≤ body.length := by omega
    have hlowest : 4 ≤ (body.drop 4).length := by rw [List.length_drop]; omega
    simp only [int32_eq hcount, int32_eq hlowest, sure_ok_bind, refuse_bind, List.drop_drop]
    split
    · rfl
    split
    · rfl
    · rename_i hsize
      exact elements_eq (not_ne_iff.1 hsize)

theorem array_eq (start : Nat) (bytes : List UInt8) :
    array start bytes = sure ((arrayItems bytes).mapError (⟨start, ·⟩)) := by
  unfold array
  rw [refuse_bind, arrayItems_eq]
  split
  · rfl
  · have hdims : 4 ≤ bytes.length := by omega
    have hflag : 4 ≤ (bytes.drop 4).length := by rw [List.length_drop]; omega
    have hoid : 4 ≤ (bytes.drop 8).length := by rw [List.length_drop]; omega
    simp only [int32_eq hdims, int32_eq hflag, int32_eq hoid, sure_ok_bind, refuse_bind,
      List.drop_drop]
    split
    · rfl
    split
    · rfl
    split
    · rfl
    · exact arrayBody_eq start _

theorem payload_eq (type : ColumnType) (start : Nat) (bytes : List UInt8) :
    payload type start bytes = sure (decodePayload type start bytes) := by
  cases type with
  | int8 =>
    simp only [payload, decodePayload]
    split
    · rename_i hlen
      rw [int64_all hlen]
      rfl
    · rfl
  | int4 =>
    simp only [payload, decodePayload]
    split
    · rename_i hlen
      rw [int32_all hlen]
      rfl
    · rfl
  | bool =>
    rcases bytes with _ | ⟨b, _ | ⟨b', bytes⟩⟩
    · rfl
    · have hbyte : decide ([b] ≠ [0]) = decide (b ≠ 0) := by simp
      simp only [payload, decodePayload, List.length_singleton, if_true, split_all, sure_ok_bind,
        hbyte]
      rfl
    · rfl
  | text =>
    simp only [payload, decodePayload]
    rcases Utf8.decode bytes with f | s <;> rfl
  | enum name =>
    simp only [payload, decodePayload]
    rcases Utf8.decode bytes with f | s <;> rfl
  | bytea => rfl
  | jsonb =>
    rcases bytes with _ | ⟨version, bytes⟩
    · rfl
    · have hfront : 1 ≤ (version :: bytes).length := Nat.succ_le_succ (Nat.zero_le _)
      have hversion : (version :: bytes).take 1 ≠ [jsonbVersion] ↔ version ≠ jsonbVersion := by simp
      simp only [payload, decodePayload, if_pos hfront, split_eq hfront, sure_ok_bind, refuse_bind,
        hversion, List.drop_one, List.tail_cons]
      split
      · rfl
      · rcases documentOf bytes with f | d <;> rfl
  | int8Array =>
    simp only [payload, decodePayload, array_eq]
    rcases arrayItems bytes with f | ns <;> rfl

theorem field_eq (type : ColumnType) (c : Cursor) : field type c = sure (decodeField type c) := by
  have hfield : decodeField type c = c.int32 >>= fun p => decodeBehind type p.1 p.2 := rfl
  rw [field, hfield, nextInt32_eq]
  rcases c.int32 with e | ⟨length, c⟩
  · rfl
  rw [sure_ok_bind]
  simp only [refuse_bind, take_eq]
  show _ = sure (decodeBehind type length c)
  unfold decodeBehind
  split
  · rfl
  split
  · rfl
  rcases c.take length.toInt.toNat with e | ⟨bytes, next⟩
  · rfl
  simp only [sure_ok_bind, payload_eq]
  exact sure_bind (decodePayload type c.offset bytes) fun v => .ok (v, next)

theorem fields_eq (columns : List Column) (c : Cursor) :
    fields columns c = sure (decodeFields columns c) := by
  induction columns generalizing c with
  | nil => rfl
  | cons column columns ih =>
    rw [fields, decodeFields, field_eq]
    rcases decodeField column.type c with e | ⟨v, c⟩
    · rfl
    simp only [sure_ok_bind, ih]
    exact sure_bind (decodeFields columns c) fun p => .ok (v :: p.1, p.2)

/-- With more rounds than there are bytes the tuples are read to the trailer. -/
theorem tuples_eq (columns : List Column) {rounds fuel : Nat} {c : Cursor}
    (hr : c.rest.length < rounds) (hf : c.rest.length < fuel) :
    tuples columns rounds c = sure (decodeTuples columns fuel c) := by
  induction fuel generalizing rounds c with
  | zero => exact absurd hf (Nat.not_lt_zero _)
  | succ fuel ih =>
    cases rounds with
    | zero => exact absurd hr (Nat.not_lt_zero _)
    | succ rounds =>
      have htuples : decodeTuples columns (fuel + 1) c
          = c.int16 >>= fun p => decodeCounted columns (decodeTuples columns fuel) p.1 p.2 := rfl
      rw [tuples, htuples, nextInt16_eq]
      rcases hcount : c.int16 with e | ⟨count, c₁⟩
      · rfl
      simp only [sure_ok_bind, refuse_bind, fields_eq]
      show _ = sure (decodeCounted columns (decodeTuples columns fuel) count c₁)
      unfold decodeCounted
      split
      · rfl
      split
      · rfl
      rcases hrow : decodeFields columns c₁ with e | ⟨row, c₂⟩
      · rfl
      -- a tuple takes two bytes at least
      have hc₂ : c₂.rest.length + 2 ≤ c.rest.length := by
        obtain ⟨word, rfl, h₁, -⟩ := (reads_int16 _).sound hf hcount
        obtain ⟨bytes, -, h₂, -⟩ := (reads_fields _ columns).sound (Nat.lt_succ_self _) hrow
        rw [h₁, h₂, List.length_append, List.length_append, Bytes.length_ofInt16]
        omega
      have hrows : tuples columns rounds c₂ = sure (decodeTuples columns fuel c₂) :=
        ih (by omega) (by omega)
      simp only [sure_ok_bind, hrows]
      exact sure_bind (decodeTuples columns fuel c₂) fun p => .ok (row :: p.1, p.2)

theorem extension_eq (c : Cursor) : extension c = sure (decodeExtension c) := by
  rw [extension, decodeExtension, nextInt32_eq]
  rcases c.int32 with e | ⟨length, c⟩
  · rfl
  simp only [sure_ok_bind, refuse_bind, take_eq]
  show _ = sure (if length < 0 then _ else _)
  split
  · rfl
  · exact sure_bind (c.take length.toInt.toNat) fun p => .ok ((), p.2)

theorem flags_eq (c : Cursor) : flags c = sure (decodeFlags c) := by
  rw [flags, decodeFlags, nextInt32_eq]
  rcases c.int32 with e | ⟨flags, c⟩
  · rfl
  simp only [sure_ok_bind, refuse_bind, extension_eq]
  show _ = sure (if flags ≠ 0 then _ else _)
  split <;> rfl

theorem header_eq (c : Cursor) : header c = sure ((decodeHeader c).map fun c => ((), c)) := by
  rw [header, map_decodeHeader, take_eq]
  rcases c.take signature.length with e | ⟨front, c⟩
  · rfl
  simp only [sure_ok_bind, refuse_bind, flags_eq]
  show _ = sure (if front ≠ signature then _ else _)
  split <;> rfl

/-- The reader never runs over the end of a buffer, and ends in no more rounds than the stream has
bytes. -/
theorem decode_eq (columns : List Column) {rounds : Nat} {stream : List UInt8}
    (hr : stream.length < rounds) :
    decode columns rounds stream = sure (Copy.decode columns stream) := by
  rw [decode, Copy.decode_eq, decodeAll, header_eq]
  rcases hheader : decodeHeader ⟨0, stream⟩ with e | c
  · rfl
  have hc : c.rest.length < rounds := by
    have hread : (decodeHeader ⟨0, stream⟩).map (fun c => ((), c)) = .ok ((), c) := by
      rw [hheader]
      rfl
    obtain ⟨front, -, hrest, -⟩ := (reads_header _).sound (Nat.lt_succ_self _) hread
    rw [show stream = front ++ c.rest from hrest, List.length_append] at hr
    omega
  simp only [Except.map, sure_ok_bind, refuse_bind, tuples_eq columns hc (Nat.lt_succ_self _)]
  show _ = sure (decodeTuples columns (c.rest.length + 1) c >>= fun p =>
    if p.2.rest ≠ [] then p.2.fail .trailingBytes else .ok p.1)
  rw [← sure_bind]
  congr 1
  funext p
  split <;> rfl

end Copy.Raw

/-- The bytes of any stream are read in bounds and to an end. The streams of the grammar are
accepted, with the rows they stand for, and any other is refused in the name of the table, at an
offset in it or at its end. -/
theorem Table.decodeStream_grammar (t : Table) (stream : List UInt8) :
    (∀ rounds > stream.length,
      Copy.Raw.decode t.columns rounds stream = Copy.Raw.sure (Copy.decode t.columns stream))
    ∧ (∀ rows, t.decodeStream stream = .ok rows ↔ Copy.IsStream t.columns stream rows)
    ∧ ((∃ rows, Copy.IsStream t.columns stream rows)
      ∨ ∃ offset reason, t.decodeStream stream = .error (.corruptStream t.name offset reason)
        ∧ offset ≤ stream.length) := by
  refine ⟨fun rounds hr => Copy.Raw.decode_eq t.columns hr, fun rows => ?_, ?_⟩
  · rw [Table.decodeStream, mapError_eq_ok, Copy.decode_eq_ok]
  · rcases h : Copy.decode t.columns stream with e | rows
    · refine .inr ⟨e.offset, e.fault.message, ?_, Copy.offset_le_of_decode h⟩
      rw [Table.decodeStream, h]
      rfl
    · exact .inl ⟨rows, Copy.decode_eq_ok.1 h⟩

end LedgerHistory
