import LedgerHistory.Json.Source
import LedgerHistory.Store.Copy.Writer

/-!
# Reading bulk-load streams

The reader takes a stream apart from front to back and reports the first thing in it that cannot
stand there, with its offset.
-/

namespace LedgerHistory

namespace Copy

/-- What is wrong with a stream. -/
inductive StreamFault
  | unexpectedEnd
  | badSignature
  | unsupportedFlags (flags : Int32)
  | negativeExtension
  | wrongFieldCount (expected : Nat) (found : Int16)
  | badFieldLength (length : Int32)
  | invalidLength (length : Nat) (type : String)
  | invalidUtf8 (fault : Utf8.Fault)
  | unsupportedJsonbVersion
  | invalidJson
  | shortArrayHeader
  | wrongElementOid (oid : Int32)
  | wrongDimensions (dimensions : Int32)
  | shortArrayDimension
  | negativeArraySize
  | wrongArraySize
  | wrongElementLength
  | trailingBytes
  deriving DecidableEq, Repr

def StreamFault.message : StreamFault → String
  | .unexpectedEnd => "unexpected end of stream"
  | .badSignature => "bad signature"
  | .unsupportedFlags flags => s!"unsupported flags 0x{Text.hexNumber flags.toUInt32.toNat}"
  | .negativeExtension => "negative header extension"
  | .wrongFieldCount expected found => s!"expected {expected} fields, got {found}"
  | .badFieldLength length => s!"bad field length {length}"
  | .invalidLength length type => s!"length {length} is invalid for {type}"
  | .invalidUtf8 fault => fault.message
  | .unsupportedJsonbVersion => "unsupported jsonb version"
  | .invalidJson => "<json>"
  | .shortArrayHeader => "short array header"
  | .wrongElementOid oid => s!"array element oid {oid}"
  | .wrongDimensions dimensions => s!"{dimensions}-dimensional array"
  | .shortArrayDimension => "short array dimension"
  | .negativeArraySize => "negative array size"
  | .wrongArraySize => "array size does not match payload"
  | .wrongElementLength => "array element is not a bigint"
  | .trailingBytes => "trailing bytes after trailer"

/-- A fault at an offset. -/
structure Corruption where
  offset : Nat
  fault : StreamFault
  deriving DecidableEq, Repr

/-- What is left of a stream, and where it begins. -/
structure Cursor where
  offset : Nat
  rest : List UInt8
  deriving DecidableEq, Repr

namespace Cursor

/-- A fault where the cursor stands. -/
def fail {α : Type} (c : Cursor) (f : StreamFault) : Except Corruption α := .error ⟨c.offset, f⟩

/-- The next bytes. -/
def take (c : Cursor) (n : Nat) : Except Corruption (List UInt8 × Cursor) :=
  let (front, rest) := c.rest.splitAt n
  if front.length = n then .ok (front, ⟨c.offset + n, rest⟩) else c.fail .unexpectedEnd

/-- The next two bytes as an integer. -/
def int16 (c : Cursor) : Except Corruption (Int16 × Cursor) := do
  let (bytes, c) ← c.take 2
  return (Bytes.toInt16 bytes, c)

/-- The next four bytes as an integer. -/
def int32 (c : Cursor) : Except Corruption (Int32 × Cursor) := do
  let (bytes, c) ← c.take 4
  return (Bytes.toInt32 bytes, c)

end Cursor

/-- The elements of an array, twelve bytes each: the length eight and a value. -/
def arrayElements : Nat → List UInt8 → Except StreamFault (List Int64)
  | 0, _ => .ok []
  | n + 1, bytes =>
    if Bytes.toInt32 (bytes.take 4) ≠ 8 then .error .wrongElementLength
    else do
      let ns ← arrayElements n (bytes.drop 12)
      return Bytes.toInt64 ((bytes.drop 4).take 8) :: ns

/-- The integers of an array payload. The flag and the lower bound are of no account, and nothing is
read behind the header of an array without dimensions. -/
def arrayItems (payload : List UInt8) : Except StreamFault (List Int64) := do
  if payload.length < 12 then throw .shortArrayHeader
  let dimensions := Bytes.toInt32 (payload.take 4)
  let oid := Bytes.toInt32 ((payload.drop 8).take 4)
  if oid ≠ int8Oid then throw (.wrongElementOid oid)
  if dimensions = 0 then return []
  if dimensions ≠ 1 then throw (.wrongDimensions dimensions)
  let body := payload.drop 12
  if body.length < 8 then throw .shortArrayDimension
  let count := Bytes.toInt32 (body.take 4)
  if count < 0 then throw .negativeArraySize
  let elements := body.drop 8
  if elements.length ≠ count.toInt.toNat * 12 then throw .wrongArraySize
  arrayElements count.toInt.toNat elements

/-- The document of a `jsonb` payload behind its version. -/
def documentOf (bytes : List UInt8) : Except StreamFault Document :=
  match Utf8.decode bytes with
  | .error _ => .error .invalidJson
  | .ok s =>
    match Json.ofString s with
    | .error _ => .error .invalidJson
    | .ok j => .ok (.ofJson j)

/-- The value of a payload that stands between two offsets. A fault in a text is placed behind the
payload, any other in front of it. -/
def decodePayload (type : ColumnType) (start : Nat) (payload : List UInt8) :
    Except Corruption ColumnValue :=
  let text : Except Corruption String :=
    (Utf8.decode payload).mapError fun f => ⟨start + payload.length, .invalidUtf8 f⟩
  let invalid : Except Corruption ColumnValue :=
    .error ⟨start, .invalidLength payload.length type.sqlName⟩
  match type with
  | .int8 => if payload.length = 8 then .ok (.int8 (Bytes.toInt64 payload)) else invalid
  | .int4 => if payload.length = 4 then .ok (.int4 (Bytes.toInt32 payload)) else invalid
  | .bool =>
    match payload with
    | [b] => .ok (.bool (b ≠ 0))
    | _ => invalid
  | .text => text.map .text
  | .enum _ => text.map .enum
  | .bytea => .ok (.bytea payload)
  | .jsonb =>
    match payload with
    | [] => invalid
    | version :: bytes =>
      if version ≠ jsonbVersion then .error ⟨start, .unsupportedJsonbVersion⟩
      else ((documentOf bytes).map .jsonb).mapError fun f => ⟨start, f⟩
  | .int8Array => ((arrayItems payload).map .int8Array).mapError fun f => ⟨start, f⟩

/-- The next field, for a column of a type. Whether the column may be empty is not asked. -/
def decodeField (type : ColumnType) (c : Cursor) : Except Corruption (ColumnValue × Cursor) := do
  let (length, c) ← c.int32
  if length = nullLength then return (.null, c)
  if length < 0 then c.fail (.badFieldLength length)
  let (payload, next) ← c.take length.toInt.toNat
  let v ← decodePayload type c.offset payload
  return (v, next)

/-- The next fields, one for each column. -/
def decodeFields : List Column → Cursor → Except Corruption (Row × Cursor)
  | [], c => .ok ([], c)
  | column :: columns, c => do
    let (v, c) ← decodeField column.type c
    let (vs, c) ← decodeFields columns c
    return (v :: vs, c)

/-- The tuples up to the trailer. Each takes at least two bytes, so the number of bytes left is fuel
enough. -/
def decodeTuples (columns : List Column) : Nat → Cursor → Except Corruption (List Row × Cursor)
  | 0, c => c.fail .unexpectedEnd
  | fuel + 1, c => do
    let (count, c) ← c.int16
    if count = trailerMark then return ([], c)
    if count.toInt ≠ columns.length then c.fail (.wrongFieldCount columns.length count)
    let (row, c) ← decodeFields columns c
    let (rows, c) ← decodeTuples columns fuel c
    return (row :: rows, c)

/-- The cursor behind the header. -/
def decodeHeader (c : Cursor) : Except Corruption Cursor := do
  let (front, c) ← c.take signature.length
  if front ≠ signature then c.fail .badSignature
  let (flags, c) ← c.int32
  if flags ≠ 0 then c.fail (.unsupportedFlags flags)
  let (extension, c) ← c.int32
  if extension < 0 then c.fail .negativeExtension
  let (_, c) ← c.take extension.toInt.toNat
  return c

/-- The rows of a stream. -/
def decode (columns : List Column) (stream : List UInt8) : Except Corruption (List Row) := do
  let c ← decodeHeader ⟨0, stream⟩
  let (rows, c) ← decodeTuples columns (c.rest.length + 1) c
  if c.rest ≠ [] then c.fail .trailingBytes
  return rows

end Copy

/-- The rows of a bulk-load stream for the table. -/
def Table.decodeStream (t : Table) (stream : List UInt8) : Except StoreError (List Row) :=
  (Copy.decode t.columns stream).mapError fun c => .corruptStream t.name c.offset c.fault.message

end LedgerHistory
