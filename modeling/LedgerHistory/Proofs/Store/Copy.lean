import LedgerHistory.Proofs.Json.RoundTrip
import LedgerHistory.Proofs.Outcome
import LedgerHistory.Store.Copy.Reader

/-!
# Reading bulk-load streams back

Every field but a document is read back as it was written, and a document as its text reads
(`ColumnValue.reread?`). So a stream of rows is read back as the rows with their documents read
anew, if these can all be read (`Table.decodeStream_bytes`); without doubles a document that can be read
stays as it is (`ColumnValue.reread?_of_floatFree`).
-/

namespace LedgerHistory

namespace Bytes

@[simp] theorem toInt64_ofInt64 (x : Int64) : toInt64 (ofInt64 x) = x := by
  have h : x.toUInt64.toNat % Nat.pow 256 8 = x.toUInt64.toNat :=
    Nat.mod_eq_of_lt x.toUInt64.toNat_lt
  rw [toInt64, ofInt64, ofBigEndian_bigEndian, h, UInt64.ofNat_toNat]
  rfl

@[simp] theorem toInt32_ofInt32 (x : Int32) : toInt32 (ofInt32 x) = x := by
  have h : x.toUInt32.toNat % Nat.pow 256 4 = x.toUInt32.toNat :=
    Nat.mod_eq_of_lt x.toUInt32.toNat_lt
  rw [toInt32, ofInt32, ofBigEndian_bigEndian, h, UInt32.ofNat_toNat]
  rfl

@[simp] theorem toInt16_ofInt16 (x : Int16) : toInt16 (ofInt16 x) = x := by
  have h : x.toUInt16.toNat % Nat.pow 256 2 = x.toUInt16.toNat :=
    Nat.mod_eq_of_lt x.toUInt16.toNat_lt
  rw [toInt16, ofInt16, ofBigEndian_bigEndian, h, UInt16.ofNat_toNat]
  rfl

@[simp] theorem length_ofInt64 (x : Int64) : (ofInt64 x).length = 8 := length_bigEndian ..

@[simp] theorem length_ofInt32 (x : Int32) : (ofInt32 x).length = 4 := length_bigEndian ..

@[simp] theorem length_ofInt16 (x : Int16) : (ofInt16 x).length = 2 := length_bigEndian ..

end Bytes

/-- The value that a field is read back as, if it is read back at all. -/
def ColumnValue.reread? : ColumnValue → Option ColumnValue
  | .jsonb d => ((Copy.documentOf (Utf8.encode d.value.compact)).toOption).map .jsonb
  | v => some v

/-- The row that a row is read back as. -/
def Row.reread? (row : Row) : Option Row := row.mapM ColumnValue.reread?

namespace ColumnValue

/-- Whether a field holds no double. -/
def IsFloatFree : ColumnValue → Prop
  | .jsonb d => d.value.isFloatFree
  | _ => True

theorem reread?_of_floatFree {v v' : ColumnValue} (h : v.IsFloatFree) (hv : v.reread? = some v') :
    v' = v := by
  cases v with
  | jsonb d =>
    simp only [reread?, Copy.documentOf, Utf8.decode_encode, Json.ofString_compact h] at hv
    by_cases hd : d.value.depth ≤ Json.maxDepth
    · simpa [hd, Document.ofJson_value, Except.toOption, eq_comm] using hv
    · simp [hd, Except.toOption] at hv
  | _ => simpa [reread?, eq_comm] using hv

end ColumnValue

namespace Copy

open ColumnValue

theorem take_append {offset n : Nat} {front rest : List UInt8} (h : front.length = n) :
    Cursor.take ⟨offset, front ++ rest⟩ n = .ok (front, ⟨offset + n, rest⟩) := by
  subst h
  simp [Cursor.take, List.splitAt_eq]

theorem int16_ofInt16 (offset : Nat) (x : Int16) (rest : List UInt8) :
    Cursor.int16 ⟨offset, Bytes.ofInt16 x ++ rest⟩ = .ok (x, ⟨offset + 2, rest⟩) := by
  simp [Cursor.int16, take_append, bind, Except.bind, pure, Except.pure]

theorem int32_ofInt32 (offset : Nat) (x : Int32) (rest : List UInt8) :
    Cursor.int32 ⟨offset, Bytes.ofInt32 x ++ rest⟩ = .ok (x, ⟨offset + 4, rest⟩) := by
  simp [Cursor.int32, take_append, bind, Except.bind, pure, Except.pure]

/-! ## Arrays -/

/-- The header of an array: its dimensions, a flag and the type of its elements. -/
def arrayHeader (dimensions flag : Int32) : List UInt8 :=
  Bytes.ofInt32 dimensions ++ Bytes.ofInt32 flag ++ Bytes.ofInt32 int8Oid

/-- The elements of an array, each with its length. -/
def elementBytes (ns : List Int64) : List UInt8 := ns.flatMap fun n => framed (Bytes.ofInt64 n)

theorem length_arrayHeader (dimensions flag : Int32) : (arrayHeader dimensions flag).length = 12 := by
  simp [arrayHeader]

theorem elementBytes_cons (n : Int64) (ns : List Int64) :
    elementBytes (n :: ns) = Bytes.ofInt32 8 ++ (Bytes.ofInt64 n ++ elementBytes ns) := by
  rw [elementBytes, List.flatMap_cons, framed, Bytes.length_ofInt64, List.append_assoc]
  rfl

theorem length_elementBytes (ns : List Int64) : (elementBytes ns).length = ns.length * 12 := by
  induction ns with
  | nil => rfl
  | cons n ns ih =>
    rw [elementBytes_cons, List.length_append, List.length_append, ih, Bytes.length_ofInt32,
      Bytes.length_ofInt64, List.length_cons]
    omega

theorem arrayElements_elementBytes (ns : List Int64) :
    arrayElements ns.length (elementBytes ns) = .ok ns := by
  induction ns with
  | nil => rfl
  | cons n ns ih =>
    have hlen : (Bytes.ofInt32 8).length = 4 := Bytes.length_ofInt32 8
    have hrest : (Bytes.ofInt32 8 ++ (Bytes.ofInt64 n ++ elementBytes ns)).drop 12
        = elementBytes ns := by
      rw [← List.append_assoc]
      exact List.drop_left' (by simp)
    rw [elementBytes_cons, List.length_cons, arrayElements, List.take_left' hlen, hrest,
      List.drop_left' hlen, List.take_left' (Bytes.length_ofInt64 n), Bytes.toInt32_ofInt32, ih]
    simp [bind, Except.bind, pure, Except.pure]

/-- The integers of an array of one dimension, behind its header. -/
def arrayBody (body : List UInt8) : Except StreamFault (List Int64) :=
  if body.length < 8 then .error .shortArrayDimension
  else if Bytes.toInt32 (body.take 4) < 0 then .error .negativeArraySize
  else if (body.drop 8).length ≠ (Bytes.toInt32 (body.take 4)).toInt.toNat * 12 then
    .error .wrongArraySize
  else arrayElements (Bytes.toInt32 (body.take 4)).toInt.toNat (body.drop 8)

theorem arrayBody_elementBytes {count : Int32} {ns : List Int64} (h : count.toInt = ns.length)
    (lowest : Int32) :
    arrayBody (Bytes.ofInt32 count ++ Bytes.ofInt32 lowest ++ elementBytes ns) = .ok ns := by
  have hfront : (Bytes.ofInt32 count ++ Bytes.ofInt32 lowest ++ elementBytes ns).take 4
      = Bytes.ofInt32 count := by
    rw [List.append_assoc]
    exact List.take_left' (Bytes.length_ofInt32 count)
  have hback : (Bytes.ofInt32 count ++ Bytes.ofInt32 lowest ++ elementBytes ns).drop 8
      = elementBytes ns := List.drop_left' (by simp)
  have hneg : 0 ≤ count := by
    rw [Int32.le_iff_toInt_le, h]
    exact Int.natCast_nonneg _
  simp only [arrayBody, ite_error_eq_ok, hfront, hback, Bytes.toInt32_ofInt32, Nat.not_lt,
    Int32.not_lt, not_ne_iff, h, Int.toNat_natCast]
  refine ⟨?_, hneg, length_elementBytes ns, arrayElements_elementBytes ns⟩
  simp only [List.length_append, Bytes.length_ofInt32]
  omega

theorem arrayItems_eq (payload : List UInt8) : arrayItems payload
    = if payload.length < 12 then .error .shortArrayHeader
      else if Bytes.toInt32 ((payload.drop 8).take 4) ≠ int8Oid then
        .error (.wrongElementOid (Bytes.toInt32 ((payload.drop 8).take 4)))
      else if Bytes.toInt32 (payload.take 4) = 0 then .ok []
      else if Bytes.toInt32 (payload.take 4) ≠ 1 then
        .error (.wrongDimensions (Bytes.toInt32 (payload.take 4)))
      else arrayBody (payload.drop 12) := rfl

/-- Behind a header the dimensions decide. -/
theorem arrayItems_arrayHeader (dimensions flag : Int32) (body : List UInt8) :
    arrayItems (arrayHeader dimensions flag ++ body)
      = if dimensions = 0 then .ok []
        else if dimensions ≠ 1 then .error (.wrongDimensions dimensions) else arrayBody body := by
  have hlen : ¬(arrayHeader dimensions flag ++ body).length < 12 := by
    rw [List.length_append, length_arrayHeader]
    omega
  have hoid : Bytes.toInt32 (((arrayHeader dimensions flag ++ body).drop 8).take 4) = int8Oid := by
    rw [arrayHeader, List.append_assoc, List.drop_left' (by simp),
      List.take_left' (Bytes.length_ofInt32 _), Bytes.toInt32_ofInt32]
  have hdims : Bytes.toInt32 ((arrayHeader dimensions flag ++ body).take 4) = dimensions := by
    rw [arrayHeader, List.append_assoc, List.append_assoc,
      List.take_left' (Bytes.length_ofInt32 _), Bytes.toInt32_ofInt32]
  rw [arrayItems_eq, if_neg hlen, hoid, if_neg (not_ne_iff.2 rfl), hdims,
    List.drop_left' (length_arrayHeader dimensions flag)]

theorem toInt_ofNat_count {n : Nat} (h : n ≤ maxLength) : (Int32.ofNat n).toInt = n :=
  Int32.toInt_ofNat_of_lt (by simp only [maxLength] at h; omega)

theorem arrayPayload_cons (n : Int64) (ns : List Int64) : arrayPayload (n :: ns)
    = arrayHeader 1 0 ++ (Bytes.ofInt32 (Int32.ofNat (n :: ns).length) ++ Bytes.ofInt32 1
        ++ elementBytes (n :: ns)) := by
  simp only [arrayPayload, arrayHeader, elementBytes, List.append_assoc]

theorem length_arrayPayload (n : Int64) (ns : List Int64) :
    (arrayPayload (n :: ns)).length = 20 + 12 * (n :: ns).length := by
  simp only [arrayPayload_cons, List.length_append, length_arrayHeader, Bytes.length_ofInt32,
    length_elementBytes]
  omega

theorem arrayItems_arrayPayload {ns : List Int64} (h : (arrayPayload ns).length ≤ maxLength) :
    arrayItems (arrayPayload ns) = .ok ns := by
  cases ns with
  | nil => rfl
  | cons n ns =>
    have hsize := length_arrayPayload n ns
    have hcount : (Int32.ofNat (n :: ns).length).toInt = (n :: ns).length :=
      toInt_ofNat_count (by omega)
    rw [arrayPayload_cons, arrayItems_arrayHeader, if_neg (by decide), if_neg (not_ne_iff.2 rfl)]
    exact arrayBody_elementBytes hcount 1

/-! ## Fields -/

theorem decodePayload_payload {v : ColumnValue} {type : ColumnType} (ht : v.hasType type) {p : List UInt8}
    (hp : payload? v = some p) (hl : p.length ≤ maxLength) (start : Nat) :
    (decodePayload type start p).toOption = v.reread? := by
  cases v <;> cases type <;> simp only [hasType, Bool.false_eq_true] at ht
  all_goals
    simp only [payload?, Option.some.injEq] at hp
    subst hp
  case int8 n => simp [decodePayload, reread?, Except.toOption]
  case int4 n => simp [decodePayload, reread?, Except.toOption]
  case bool b => cases b <;> rfl
  case text s => simp [decodePayload, reread?, Utf8.decode_encode, Except.mapError, Except.map,
    Except.toOption]
  case enum s name => simp [decodePayload, reread?, Utf8.decode_encode, Except.mapError, Except.map,
    Except.toOption]
  case bytea bytes => rfl
  case jsonb d =>
    simp [decodePayload, reread?, toOption_mapError, toOption_map]
  case int8Array ns =>
    simp only [decodePayload, reread?, arrayItems_arrayPayload hl]
    rfl

theorem decodeField_fieldBytes {v : ColumnValue} {type : ColumnType} (ht : v.isNull ∨ v.hasType type)
    {bytes : List UInt8} (hb : fieldBytes v = .ok bytes) (offset : Nat) (rest : List UInt8) :
    (decodeField type ⟨offset, bytes ++ rest⟩).toOption
      = v.reread?.map (·, ⟨offset + bytes.length, rest⟩) := by
  cases hp : payload? v with
  | none =>
    have hv : v = .null := by cases v <;> simp [payload?] at hp; rfl
    subst hv
    simp only [fieldBytes, hp, Except.ok.injEq] at hb
    subst hb
    simp [decodeField, int32_ofInt32, bind, Except.bind, pure, Except.pure, Except.toOption, reread?]
  | some p =>
    simp only [fieldBytes, hp] at hb
    split at hb
    · rename_i hl
      cases hb
      have hn : v.isNull = false := by cases v <;> simp [payload?] at hp <;> rfl
      have ht : v.hasType type := by simpa [hn] using ht
      have hlen : (Int32.ofNat p.length).toInt = p.length := toInt_ofNat_count hl
      have hnull : Int32.ofNat p.length ≠ nullLength := by
        intro e
        have := congrArg Int32.toInt e
        rw [hlen] at this
        exact absurd this (by simp [nullLength])
      have hneg : ¬Int32.ofNat p.length < 0 := by
        rw [Int32.lt_iff_toInt_lt, hlen]
        exact Int.not_lt.2 (Int.natCast_nonneg _)
      have hd := decodePayload_payload ht hp hl (offset + 4)
      simp only [framed, List.append_assoc, decodeField, int32_ofInt32, bind, Except.bind, pure,
        Except.pure, hnull, hneg, if_false, hlen, Int.toNat_natCast, take_append]
      rcases hdec : decodePayload type (offset + 4) p with e | v'
      · rw [← hd, hdec]
        rfl
      · rw [← hd, hdec]
        simp [Except.toOption, Nat.add_assoc]
    · cases hb

/-! ## Rows -/

theorem isNull_or_hasType {c : Column} {v : ColumnValue} (h : checkField c v = .ok ()) :
    v.isNull ∨ v.hasType c.type := by
  unfold checkField at h
  split at h
  · exact .inl ‹_›
  · split at h
    · exact .inr ‹_›
    · cases h

theorem decodeFields_encodeFields {t : Table} {columns : List Column} {row : Row}
    (hlen : row.length = columns.length) (hc : t.checkFields columns row = .ok ())
    {bytes : List UInt8} (hb : t.encodeFields columns row = .ok bytes) (offset : Nat)
    (rest : List UInt8) :
    (decodeFields columns ⟨offset, bytes ++ rest⟩).toOption
      = row.reread?.map (·, ⟨offset + bytes.length, rest⟩) := by
  induction columns generalizing row bytes offset with
  | nil =>
    obtain rfl := List.length_eq_zero_iff.1 hlen
    cases hb
    rfl
  | cons c columns ih =>
    match row with
    | v :: row =>
      rw [Table.checkFields] at hc
      obtain ⟨_, hcheck, hc⟩ := bind_eq_ok.1 hc
      rw [Table.encodeFields] at hb
      obtain ⟨field, hfield, hb⟩ := bind_eq_ok.1 hb
      obtain ⟨fields, hfields, hb⟩ := bind_eq_ok.1 hb
      cases hb
      have hv := isNull_or_hasType (mapError_eq_ok.1 hcheck)
      have hf := mapError_eq_ok.1 hfield
      have hfirst := decodeField_fieldBytes hv hf offset (fields ++ rest)
      have hnext := ih (by simpa using hlen) hc hfields (offset + field.length)
      simp only [decodeFields, toOption_bind, List.append_assoc, hfirst, Row.reread?, List.mapM_cons,
        List.length_append]
      rcases v.reread? with _ | v'
      · rfl
      · simp only [Option.map_some, Option.bind_some, hnext]
        rw [Row.reread?]
        rcases row.mapM reread? with _ | row'
        · rfl
        · simp [Except.toOption, pure, Except.pure, Nat.add_assoc]

theorem encodeRow_eq_ok {t : Table} {row : Row} {tuple : List UInt8}
    (h : t.encodeRow row = .ok tuple) :
    row.length = t.arity ∧ t.checkFields t.columns row = .ok () ∧
      ∃ fields, t.encodeFields t.columns row = .ok fields
        ∧ tuple = Bytes.ofInt16 (Int16.ofNat t.arity) ++ fields := by
  unfold Table.encodeRow at h
  by_cases hlen : row.length = t.arity
  · rw [if_neg (by simpa using hlen)] at h
    obtain ⟨_, hcheck, h⟩ := bind_eq_ok.1 h
    obtain ⟨fields, hfields, h⟩ := bind_eq_ok.1 h
    cases h
    exact ⟨hlen, hcheck, fields, hfields, rfl⟩
  · rw [if_pos hlen] at h
    cases h

theorem toInt_ofNat_arity {n : Nat} (h : n < 0x8000) : (Int16.ofNat n).toInt = n :=
  Int16.toInt_ofNat_of_lt h

/-- A tuple with the number of columns is read field by field, and then what follows it. -/
theorem decodeTuples_tuple {columns : List Column} {count : Int16}
    (h : count.toInt = columns.length) (fuel offset : Nat) (rest : List UInt8) :
    decodeTuples columns (fuel + 1) ⟨offset, Bytes.ofInt16 count ++ rest⟩
      = decodeFields columns ⟨offset + 2, rest⟩ >>= fun p =>
          decodeTuples columns fuel p.2 >>= fun q => .ok (p.1 :: q.1, q.2) := by
  have hmark : count ≠ trailerMark := by
    rintro rfl
    exact absurd h (by simp [trailerMark])
  simp only [decodeTuples, int16_ofInt16, hmark, h, bind, Except.bind, pure, Except.pure, if_false,
    ne_eq, not_true_eq_false]

theorem decodeTuples_trailer (columns : List Column) (fuel offset : Nat) :
    decodeTuples columns (fuel + 1) ⟨offset, trailer⟩ = .ok ([], ⟨offset + 2, []⟩) := by
  have hmark := int16_ofInt16 offset trailerMark []
  rw [List.append_nil] at hmark
  simp [decodeTuples, trailer, hmark, bind, Except.bind, pure, Except.pure]

theorem decodeTuples_append {t : Table} (ha : t.arity < 0x8000) {rows : List Row}
    {tuples : List (List UInt8)} (h : rows.mapM t.encodeRow = .ok tuples) (fuel : Nat)
    (hf : rows.length < fuel) (offset : Nat) :
    (decodeTuples t.columns fuel ⟨offset, tuples.flatten ++ trailer⟩).toOption
      = (rows.mapM Row.reread?).map (·, ⟨offset + tuples.flatten.length + 2, []⟩) := by
  induction rows generalizing tuples fuel offset with
  | nil =>
    obtain ⟨n, rfl⟩ : ∃ n, fuel = n + 1 := ⟨fuel - 1, by simp at hf; omega⟩
    cases h
    exact congrArg Except.toOption (decodeTuples_trailer t.columns n offset)
  | cons row rows ih =>
    obtain ⟨n, rfl⟩ : ∃ n, fuel = n + 1 := ⟨fuel - 1, by simp at hf; omega⟩
    rw [List.mapM_cons] at h
    obtain ⟨tuple, htuple, h⟩ := bind_eq_ok.1 h
    obtain ⟨tuples, htuples, h⟩ := bind_eq_ok.1 h
    cases h
    obtain ⟨hlen, hc, fields, hfields, rfl⟩ := encodeRow_eq_ok htuple
    have hcount : (Int16.ofNat t.arity).toInt = t.columns.length := toInt_ofNat_arity ha
    have hfirst := decodeFields_encodeFields hlen hc hfields (offset + 2) (tuples.flatten ++ trailer)
    have hnext := ih htuples n (by simp at hf; omega) (offset + 2 + fields.length)
    rw [List.flatten_cons, List.append_assoc, List.append_assoc,
      decodeTuples_tuple hcount, toOption_bind, hfirst, List.mapM_cons]
    rcases row.reread? with _ | row'
    · rfl
    · simp only [Option.map_some, Option.bind_some, toOption_bind, hnext]
      rcases rows.mapM Row.reread? with _ | rows'
      · rfl
      · simp [Except.toOption, Nat.add_assoc]

theorem length_le_flatten {t : Table} {rows : List Row} {tuples : List (List UInt8)}
    (h : rows.mapM t.encodeRow = .ok tuples) : rows.length ≤ tuples.flatten.length := by
  induction rows generalizing tuples with
  | nil => simp
  | cons row rows ih =>
    rw [List.mapM_cons] at h
    obtain ⟨tuple, htuple, h⟩ := bind_eq_ok.1 h
    obtain ⟨tuples, htuples, h⟩ := bind_eq_ok.1 h
    cases h
    obtain ⟨_, _, fields, _, rfl⟩ := encodeRow_eq_ok htuple
    have := ih htuples
    simp only [List.length_cons, List.flatten_cons, List.length_append, Bytes.length_ofInt16]
    omega

theorem decodeHeader_header (rest : List UInt8) :
    decodeHeader ⟨0, header ++ rest⟩ = .ok ⟨19, rest⟩ := by
  have hflags : (Bytes.toInt32 (Bytes.ofInt32 0)) = 0 := Bytes.toInt32_ofInt32 0
  have htake : Cursor.take ⟨0, header ++ rest⟩ signature.length
      = .ok (signature, ⟨11, Bytes.ofInt32 0 ++ (Bytes.ofInt32 0 ++ rest)⟩) := by
    rw [header, List.append_assoc, List.append_assoc, take_append rfl]
    rfl
  have hnone : Cursor.take ⟨19, rest⟩ (0 : Int32).toInt.toNat = .ok ([], ⟨19, rest⟩) :=
    take_append (show ([] : List UInt8).length = 0 from rfl)
  simp only [decodeHeader, htake, int32_ofInt32, bind, Except.bind, pure, Except.pure, ne_eq,
    not_true_eq_false, if_false, hnone]
  rfl

end Copy

/-- The stream of rows is read back as the rows read anew, if all can be. -/
theorem Table.decodeStream_bytes {t : Table} (ha : t.arity < 0x8000) {rows : List Row}
    {tuples : List (List UInt8)} (h : rows.mapM t.encodeRow = .ok tuples) :
    (t.decodeStream (Copy.header ++ tuples.flatten ++ Copy.trailer)).toOption
      = rows.mapM Row.reread? := by
  have hlen := Copy.length_le_flatten h
  have hd := Copy.decodeTuples_append ha h
    ((tuples.flatten ++ Copy.trailer).length + 1) (by rw [List.length_append]; omega) 19
  rw [Table.decodeStream, toOption_mapError, Copy.decode, List.append_assoc,
    Copy.decodeHeader_header]
  show (Copy.decodeTuples t.columns _ ⟨19, _⟩ >>= _).toOption = _
  rw [toOption_bind, hd]
  rcases rows.mapM Row.reread? with _ | rows' <;> rfl

end LedgerHistory
