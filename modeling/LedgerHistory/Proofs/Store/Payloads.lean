import LedgerHistory.Proofs.Store.Forms

/-!
# The payloads of fields

The bytes that stand for the values of each column type (`Copy.IsPayload`), told without a reader.
The reader accepts just these (`Copy.decodePayload_eq_ok`).
-/

namespace LedgerHistory

namespace Utf8

theorem encode_of_decode {bytes : List UInt8} {s : String} (h : decode bytes = .ok s) :
    encode s = bytes := by
  unfold decode at h
  split at h
  · rename_i text htext
    cases h
    unfold String.fromUTF8? at htext
    split at htext
    · cases htext
      rfl
    · cases htext
  · cases h

theorem decode_eq_ok {bytes : List UInt8} {s : String} : decode bytes = .ok s ↔ bytes = encode s :=
  ⟨fun h => (encode_of_decode h).symm, fun h => h ▸ decode_encode s⟩

end Utf8

namespace Bytes

theorem eq_ofInt32_append {bytes : List UInt8} (h : 4 ≤ bytes.length) :
    bytes = ofInt32 (toInt32 (bytes.take 4)) ++ bytes.drop 4 := by
  rw [ofInt32_toInt32 (List.length_take_of_le h), List.take_append_drop]

end Bytes

namespace Copy

/-- The payloads of the values of a column type. A document may have any text that is read as JSON. The
flag and the lower bound of an array may be any, and so may what follows the header of one without
dimensions. -/
inductive IsPayload : ColumnType → List UInt8 → ColumnValue → Prop
  | int8 (n : Int64) : IsPayload .int8 (Bytes.ofInt64 n) (.int8 n)
  | int4 (n : Int32) : IsPayload .int4 (Bytes.ofInt32 n) (.int4 n)
  | bool (b : UInt8) : IsPayload .bool [b] (.bool (b ≠ 0))
  | text (s : String) : IsPayload .text (Utf8.encode s) (.text s)
  | enum (name s : String) : IsPayload (.enum name) (Utf8.encode s) (.enum s)
  | bytea (bytes : List UInt8) : IsPayload .bytea bytes (.bytea bytes)
  | jsonb {s : String} {j : Json} (h : Json.ofString s = .ok j) :
    IsPayload .jsonb (jsonbVersion :: Utf8.encode s) (.jsonb (.ofJson j))
  | noDimension (flag : Int32) (rest : List UInt8) :
    IsPayload .int8Array (arrayHeader 0 flag ++ rest) (.int8Array [])
  | oneDimension (flag lowest count : Int32) {ns : List Int64} (h : count.toInt = ns.length) :
    IsPayload .int8Array
      (arrayHeader 1 flag ++ Bytes.ofInt32 count ++ Bytes.ofInt32 lowest ++ elementBytes ns)
      (.int8Array ns)

theorem eq_arrayHeader_append {payload : List UInt8} (h : 12 ≤ payload.length)
    (hoid : Bytes.toInt32 ((payload.drop 8).take 4) = int8Oid) :
    ∃ flag, payload = arrayHeader (Bytes.toInt32 (payload.take 4)) flag ++ payload.drop 12 := by
  refine ⟨Bytes.toInt32 ((payload.drop 4).take 4), ?_⟩
  have h₁ : 4 ≤ payload.length := by omega
  have h₂ : 4 ≤ (payload.drop 4).length := by rw [List.length_drop]; omega
  have h₃ : 4 ≤ (payload.drop 8).length := by rw [List.length_drop]; omega
  have hthird := Bytes.eq_ofInt32_append h₃
  have hsecond := Bytes.eq_ofInt32_append h₂
  rw [hoid, List.drop_drop] at hthird
  rw [List.drop_drop, hthird] at hsecond
  calc payload
      = Bytes.ofInt32 (Bytes.toInt32 (payload.take 4)) ++ payload.drop 4 :=
        Bytes.eq_ofInt32_append h₁
    _ = arrayHeader (Bytes.toInt32 (payload.take 4)) (Bytes.toInt32 ((payload.drop 4).take 4))
          ++ payload.drop 12 := by
        rw [arrayHeader, List.append_assoc, List.append_assoc, ← hsecond]

theorem arrayElements_eq_ok {n : Nat} {bytes : List UInt8} {ns : List Int64}
    (hl : bytes.length = n * 12) :
    arrayElements n bytes = .ok ns ↔ ns.length = n ∧ bytes = elementBytes ns := by
  constructor
  · intro h
    induction n generalizing bytes ns with
    | zero =>
      cases h
      exact ⟨rfl, List.length_eq_zero_iff.1 (by omega)⟩
    | succ n ih =>
      rw [arrayElements, ite_error_eq_ok, not_ne_iff] at h
      obtain ⟨hframe, h⟩ := h
      obtain ⟨ns, hns, h⟩ := bind_eq_ok.1 h
      cases h
      obtain ⟨hlen, htail⟩ := ih (by rw [List.length_drop]; omega) hns
      have hword : ((bytes.drop 4).take 8).length = 8 := by
        rw [List.length_take, List.length_drop]
        omega
      refine ⟨congrArg (· + 1) hlen, ?_⟩
      calc bytes
          = Bytes.ofInt32 8 ++ bytes.drop 4 := hframe ▸ Bytes.eq_ofInt32_append (by omega)
        _ = Bytes.ofInt32 8 ++ ((bytes.drop 4).take 8 ++ bytes.drop 12) := by
          rw [← List.drop_drop (i := 8), List.take_append_drop]
        _ = elementBytes (Bytes.toInt64 ((bytes.drop 4).take 8) :: ns) := by
          rw [elementBytes_cons, Bytes.ofInt64_toInt64 hword, htail]
  · rintro ⟨rfl, rfl⟩
    exact arrayElements_elementBytes ns

theorem arrayBody_eq_ok {body : List UInt8} {ns : List Int64} : arrayBody body = .ok ns
    ↔ ∃ count lowest : Int32, count.toInt = ns.length
      ∧ body = Bytes.ofInt32 count ++ Bytes.ofInt32 lowest ++ elementBytes ns := by
  constructor
  · intro h
    simp only [arrayBody, ite_error_eq_ok, Nat.not_lt, Int32.not_lt, not_ne_iff] at h
    obtain ⟨hlen, hneg, hsize, h⟩ := h
    obtain ⟨hcount, helements⟩ := (arrayElements_eq_ok hsize).1 h
    have hneg : 0 ≤ (Bytes.toInt32 (body.take 4)).toInt := Int32.le_iff_toInt_le.1 hneg
    have hsecond : 4 ≤ (body.drop 4).length := by
      rw [List.length_drop]
      omega
    refine ⟨Bytes.toInt32 (body.take 4), Bytes.toInt32 ((body.drop 4).take 4), ?_, ?_⟩
    · rw [hcount, Int.toNat_of_nonneg hneg]
    · calc body
          = Bytes.ofInt32 (Bytes.toInt32 (body.take 4)) ++ body.drop 4 :=
            Bytes.eq_ofInt32_append (by omega)
        _ = Bytes.ofInt32 (Bytes.toInt32 (body.take 4))
              ++ (Bytes.ofInt32 (Bytes.toInt32 ((body.drop 4).take 4)) ++ body.drop 8) := by
          rw [← List.drop_drop (i := 4) (j := 4), ← Bytes.eq_ofInt32_append hsecond]
        _ = _ := by rw [← helements, List.append_assoc]
  · rintro ⟨count, lowest, hcount, rfl⟩
    exact arrayBody_elementBytes hcount lowest

theorem arrayItems_eq_ok {payload : List UInt8} {ns : List Int64} :
    arrayItems payload = .ok ns ↔ IsPayload .int8Array payload (.int8Array ns) := by
  constructor
  · intro h
    rw [arrayItems_eq, ite_error_eq_ok, ite_error_eq_ok, Nat.not_lt, not_ne_iff] at h
    obtain ⟨hlen, hoid, h⟩ := h
    obtain ⟨flag, hpayload⟩ := eq_arrayHeader_append hlen hoid
    split at h
    · rename_i hdims
      cases h
      rw [hpayload, hdims]
      exact .noDimension flag _
    · rw [ite_error_eq_ok, not_ne_iff] at h
      obtain ⟨hdims, h⟩ := h
      obtain ⟨count, lowest, hcount, hbody⟩ := arrayBody_eq_ok.1 h
      rw [hpayload, hdims, hbody, ← List.append_assoc, ← List.append_assoc]
      exact .oneDimension flag lowest count hcount
  · intro h
    cases h with
    | noDimension flag rest => rw [arrayItems_arrayHeader, if_pos rfl]
    | oneDimension flag lowest count hcount =>
      rw [List.append_assoc, List.append_assoc, arrayItems_arrayHeader, if_neg (by decide),
        if_neg (not_ne_iff.2 rfl), ← List.append_assoc]
      exact arrayBody_elementBytes hcount lowest

theorem documentOf_eq_ok {bytes : List UInt8} {d : Document} : documentOf bytes = .ok d
    ↔ ∃ s j, bytes = Utf8.encode s ∧ Json.ofString s = .ok j ∧ d = .ofJson j := by
  unfold documentOf
  constructor
  · intro h
    split at h
    · cases h
    · rename_i s hs
      split at h
      · cases h
      · rename_i j hj
        cases h
        exact ⟨s, j, Utf8.decode_eq_ok.1 hs, hj, rfl⟩
  · rintro ⟨s, j, rfl, hj, rfl⟩
    simp only [Utf8.decode_encode, hj]

theorem isPayload_of_decodePayload {type : ColumnType} {start : Nat} {payload : List UInt8}
    {v : ColumnValue} (h : decodePayload type start payload = .ok v) : IsPayload type payload v := by
  cases type with
  | int8 =>
    simp only [decodePayload] at h
    split at h
    · rename_i hlen
      cases h
      have hp := IsPayload.int8 (Bytes.toInt64 payload)
      rwa [Bytes.ofInt64_toInt64 hlen] at hp
    · cases h
  | int4 =>
    simp only [decodePayload] at h
    split at h
    · rename_i hlen
      cases h
      have hp := IsPayload.int4 (Bytes.toInt32 payload)
      rwa [Bytes.ofInt32_toInt32 hlen] at hp
    · cases h
  | bool =>
    simp only [decodePayload] at h
    split at h
    · cases h
      exact .bool _
    · cases h
  | text =>
    obtain ⟨s, hs, rfl⟩ := map_eq_ok.1 h
    rw [Utf8.decode_eq_ok.1 (mapError_eq_ok.1 hs)]
    exact .text s
  | enum name =>
    obtain ⟨s, hs, rfl⟩ := map_eq_ok.1 h
    rw [Utf8.decode_eq_ok.1 (mapError_eq_ok.1 hs)]
    exact .enum name s
  | bytea =>
    cases h
    exact .bytea payload
  | jsonb =>
    simp only [decodePayload] at h
    split at h
    · cases h
    · rw [ite_error_eq_ok, not_ne_iff] at h
      obtain ⟨rfl, h⟩ := h
      obtain ⟨d, hd, rfl⟩ := map_eq_ok.1 (mapError_eq_ok.1 h)
      obtain ⟨s, j, rfl, hj, rfl⟩ := documentOf_eq_ok.1 hd
      exact .jsonb hj
  | int8Array =>
    obtain ⟨ns, hns, rfl⟩ := map_eq_ok.1 (mapError_eq_ok.1 h)
    exact arrayItems_eq_ok.1 hns

theorem decodePayload_of_isPayload {type : ColumnType} {payload : List UInt8} {v : ColumnValue}
    (h : IsPayload type payload v) (start : Nat) : decodePayload type start payload = .ok v := by
  cases h with
  | int8 n => simp [decodePayload]
  | int4 n => simp [decodePayload]
  | bool b => rfl
  | text s => exact map_eq_ok.2 ⟨s, mapError_eq_ok.2 (Utf8.decode_encode s), rfl⟩
  | enum name s => exact map_eq_ok.2 ⟨s, mapError_eq_ok.2 (Utf8.decode_encode s), rfl⟩
  | bytea => rfl
  | @jsonb s j hj =>
    have hd : documentOf (Utf8.encode s) = .ok (.ofJson j) :=
      documentOf_eq_ok.2 ⟨s, j, rfl, hj, rfl⟩
    simp only [decodePayload]
    rw [if_neg (not_ne_iff.2 rfl)]
    exact mapError_eq_ok.2 (map_eq_ok.2 ⟨_, hd, rfl⟩)
  | noDimension flag rest =>
    have hns := arrayItems_eq_ok.2 (.noDimension flag rest)
    rw [decodePayload, hns]
    rfl
  | oneDimension flag lowest count hcount =>
    have hns := arrayItems_eq_ok.2 (.oneDimension flag lowest count hcount)
    rw [decodePayload, hns]
    rfl

theorem decodePayload_eq_ok {type : ColumnType} {start : Nat} {payload : List UInt8}
    {v : ColumnValue} : decodePayload type start payload = .ok v ↔ IsPayload type payload v :=
  ⟨isPayload_of_decodePayload, fun h => decodePayload_of_isPayload h start⟩

/-- Behind the header of an array without dimensions anything may stand. -/
example : decodePayload .int8Array 0 (arrayHeader 0 0 ++ [7]) = .ok (.int8Array []) := by decide

theorem offset_le_of_decodePayload {type : ColumnType} {start : Nat} {payload : List UInt8}
    {e : Corruption} (h : decodePayload type start payload = .error e) :
    e.offset ≤ start + payload.length := by
  have hfront : ∀ fault : StreamFault, (⟨start, fault⟩ : Corruption).offset ≤ start + payload.length :=
    fun _ => Nat.le_add_right _ _
  have htext {f : String → ColumnValue} (h : ((Utf8.decode payload).mapError fun fault =>
      (⟨start + payload.length, .invalidUtf8 fault⟩ : Corruption)).map f = .error e) :
      e.offset ≤ start + payload.length := by
    rcases hs : Utf8.decode payload with fault | s
    · rw [hs] at h
      cases h
      exact Nat.le_refl _
    · rw [hs] at h
      cases h
  have hat {x : Except StreamFault ColumnValue} (h : x.mapError (⟨start, ·⟩) = .error e) :
      e.offset ≤ start + payload.length := by
    rcases x with fault | v
    · cases h
      exact hfront fault
    · cases h
  cases type with
  | int8 | int4 =>
    simp only [decodePayload] at h
    split at h <;> cases h
    exact hfront _
  | bool =>
    simp only [decodePayload] at h
    split at h <;> cases h
    exact hfront _
  | text | enum => exact htext h
  | bytea => cases h
  | jsonb =>
    simp only [decodePayload] at h
    split at h
    · cases h
      exact hfront _
    · split at h
      · cases h
        exact hfront _
      · exact hat h
  | int8Array => exact hat h

/-! ## Readers -/

theorem reads_payload (limit : Nat) (type : ColumnType) (n : Nat) :
    Reads limit (fun bytes v => bytes.length = n ∧ IsPayload type bytes v) fun c =>
      c.take n >>= fun p => decodePayload type c.offset p.1 >>= fun v => .ok (v, p.2) := by
  have hok (o : Nat) (payload : List UInt8) (v : ColumnValue) :
      decodePayload type o payload = .ok v ↔ IsPayload type payload v := decodePayload_eq_ok
  have hinside (o : Nat) (bytes payload : List UInt8) (e : Corruption)
      (h : bytes.length = n ∧ payload = bytes) (he : decodePayload type o payload = .error e) :
      e.offset ≤ o + bytes.length := h.2 ▸ offset_le_of_decodePayload he
  refine ((reads_take limit n).check hok hinside).congr fun bytes v => ⟨?_, ?_⟩
  · rintro ⟨_, ⟨hlen, rfl⟩, hv⟩
    exact ⟨hlen, hv⟩
  · rintro ⟨hlen, hv⟩
    exact ⟨bytes, ⟨hlen, rfl⟩, hv⟩

end Copy

end LedgerHistory
