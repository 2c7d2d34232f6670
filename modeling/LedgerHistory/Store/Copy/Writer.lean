import LedgerHistory.Bytes
import LedgerHistory.Json.Printer
import LedgerHistory.Store.Table
import LedgerHistory.Text.Utf8

/-!
# Writing bulk-load streams

A stream is a header, one tuple for each row and a trailer. A tuple is the number of its fields and
the fields, each its length and payload; an empty field has the length -1. All numbers are
big-endian.
-/

namespace LedgerHistory

namespace Copy

/-- What every stream begins with. -/
def signature : List UInt8 := [80, 71, 67, 79, 80, 89, 10, 255, 13, 10, 0]

/-- The signature, no flags and no extension. -/
def header : List UInt8 := signature ++ Bytes.ofInt32 0 ++ Bytes.ofInt32 0

/-- What stands in place of a tuple's number of fields at the end. -/
def trailerMark : Int16 := -1

def trailer : List UInt8 := Bytes.ofInt16 trailerMark

def nullLength : Int32 := -1

/-- What a `jsonb` payload begins with. -/
def jsonbVersion : UInt8 := 1

/-- The object id of the type `bigint`, which an array names as that of its elements. -/
def int8Oid : Int32 := 20

/-- The longest payload. -/
def maxLength : Nat := 0x7FFFFFFF

/-- A payload behind its length. -/
def framed (payload : List UInt8) : List UInt8 :=
  Bytes.ofInt32 (Int32.ofNat payload.length) ++ payload

/-- The payload of an array: its dimensions, a flag, the type of its elements, and for each dimension
a size and a lower bound. An empty array has no dimensions. -/
def arrayPayload : List Int64 → List UInt8
  | [] => Bytes.ofInt32 0 ++ Bytes.ofInt32 0 ++ Bytes.ofInt32 int8Oid
  | ns =>
    Bytes.ofInt32 1 ++ Bytes.ofInt32 0 ++ Bytes.ofInt32 int8Oid
      ++ Bytes.ofInt32 (Int32.ofNat ns.length) ++ Bytes.ofInt32 1
      ++ ns.flatMap fun n => framed (Bytes.ofInt64 n)

/-- The payload of a field that is not empty. -/
def payload? : ColumnValue → Option (List UInt8)
  | .null => none
  | .int8 n => some (Bytes.ofInt64 n)
  | .int4 n => some (Bytes.ofInt32 n)
  | .bool b => some [if b then 1 else 0]
  | .text s => some (Utf8.encode s)
  | .enum s => some (Utf8.encode s)
  | .bytea bytes => some bytes
  | .jsonb d => some (jsonbVersion :: Utf8.encode d.value.compact)
  | .int8Array ns => some (arrayPayload ns)

/-- A field with its length. -/
def fieldBytes (v : ColumnValue) : Except EncodingFault (List UInt8) :=
  match payload? v with
  | none => .ok (Bytes.ofInt32 nullLength)
  | some p => if p.length ≤ maxLength then .ok (framed p) else .error (.tooLong p.length)

/-- Whether a value may stand in a column. -/
def checkField (c : Column) (v : ColumnValue) : Except EncodingFault Unit :=
  if v.isNull then if c.nullable then .ok () else .error .nullInRequired
  else if v.hasType c.type then .ok ()
  else .error (.wrongType c.type.sqlName v.typeName)

end Copy

namespace Table

/-- A fault in a column as an error of the store. -/
def encodingFailure (t : Table) (column : String) : EncodingFault → StoreError :=
  .encoding t.name column

/-- Checks the fields of a row against their columns. -/
def checkFields (t : Table) : List Column → Row → Except StoreError Unit
  | c :: cs, v :: vs => do
    (Copy.checkField c v).mapError (t.encodingFailure c.name)
    checkFields t cs vs
  | _, _ => .ok ()

def encodeFields (t : Table) : List Column → Row → Except StoreError (List UInt8)
  | c :: cs, v :: vs => do
    let field ← (Copy.fieldBytes v).mapError (t.encodingFailure c.name)
    let fields ← encodeFields t cs vs
    return field ++ fields
  | _, _ => .ok []

/-- The tuple of a row. All fields are checked before any is written. -/
def encodeRow (t : Table) (row : Row) : Except StoreError (List UInt8) := do
  if row.length ≠ t.arity then
    throw (t.encodingFailure "*" (.wrongArity t.arity row.length))
  t.checkFields t.columns row
  let fields ← t.encodeFields t.columns row
  return Bytes.ofInt16 (Int16.ofNat t.arity) ++ fields

end Table

/-- A stream that is being written: the tuples so far. -/
structure BulkStream where
  table : Table
  tuples : List (List UInt8) := []

namespace BulkStream

/-- A stream without tuples. -/
def new (table : Table) : BulkStream := ⟨table, []⟩

def rowCount (w : BulkStream) : Nat := w.tuples.length

def write (w : BulkStream) (row : Row) : Except StoreError BulkStream :=
  (w.table.encodeRow row).map fun tuple => { w with tuples := w.tuples ++ [tuple] }

/-- The whole stream. -/
def bytes (w : BulkStream) : List UInt8 := Copy.header ++ w.tuples.flatten ++ Copy.trailer

/-- Writes rows up to the first that is refused. -/
def writeAll (w : BulkStream) : List Row → Except StoreError BulkStream
  | [] => .ok w
  | row :: rows => do writeAll (← w.write row) rows

/-- Offers each row in turn and passes over those that are refused; the results tell which. -/
def offerAll (w : BulkStream) : List Row → BulkStream × List (Except StoreError Unit)
  | [] => (w, [])
  | row :: rows =>
    match w.write row with
    | .ok w' => let (w'', rs) := w'.offerAll rows; (w'', .ok () :: rs)
    | .error e => let (w'', rs) := w.offerAll rows; (w'', .error e :: rs)

end BulkStream

end LedgerHistory
