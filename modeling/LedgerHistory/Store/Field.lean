import LedgerHistory.Json.Basic
import LedgerHistory.Ledger.Label

/-!
# Column values

What a field of a row holds, and the errors of the store. A value is read back through an accessor of
the type that it is expected to have.
-/

namespace LedgerHistory

/-- The type of a column, which fixes how its values are written. -/
inductive ColumnType
  | int8
  | int4
  | bool
  | text
  | bytea
  | jsonb
  | int8Array
  /-- A named enum, whose values are written as their labels. -/
  | enum (name : String)
  deriving DecidableEq, Repr

def ColumnType.sqlName : ColumnType → String
  | .int8 => "bigint"
  | .int4 => "integer"
  | .bool => "boolean"
  | .text => "text"
  | .bytea => "bytea"
  | .jsonb => "jsonb"
  | .int8Array => "bigint[]"
  | .enum name => name

/-- What a field of a row holds. -/
inductive ColumnValue
  | null
  | int8 (n : Int64)
  | int4 (n : Int32)
  | bool (b : Bool)
  | text (s : String)
  | bytea (bytes : List UInt8)
  | jsonb (document : Document)
  | int8Array (ns : List Int64)
  | enum (label : String)
  deriving DecidableEq

/-- The fields of a row, in the order of its table's columns. -/
abbrev Row := List ColumnValue

/-- Why a row cannot be written. -/
inductive EncodingFault
  | wrongArity (expected found : Nat)
  | nullInRequired
  | wrongType (expected found : String)
  | tooLong (length : Nat)
  deriving DecidableEq, Repr

def EncodingFault.message : EncodingFault → String
  | .wrongArity expected found => s!"expected {expected} fields, got {found}"
  | .nullInRequired => "null in non-nullable column"
  | .wrongType expected found => s!"expected {expected}, got {found}"
  | .tooLong length => s!"field of {length} bytes exceeds the format limit"

/-- Why a query is refused. -/
inductive QueryFault
  | noKeyColumns
  | wrongArity (found expected : Nat)
  | wrongType (found column : String)
  deriving DecidableEq, Repr

def QueryFault.message : QueryFault → String
  | .noKeyColumns => "no key columns"
  | .wrongArity found expected => s!"key has {found} values for {expected} columns"
  | .wrongType found column => s!"key value of type {found} for {column} column"

/-- Why an operation of the store fails. -/
inductive StoreError
  /-- A row does not fit its table. -/
  | encoding (table column : String) (fault : EncodingFault)
  /-- A stored field holds no value of its type. -/
  | decoding (table column : String) (cause : InvalidText)
  /-- A bulk-load stream cannot be read. -/
  | corruptStream (table : String) (offset : Nat) (reason : String)
  /-- A field is read as a type that it does not hold. -/
  | typeMismatch (expected found : String)
  | unknownColumn (table column : String)
  | malformedQuery (table : String) (fault : QueryFault)
  | duplicateKey (table : String) (id : Int64)
  | transport (text : String)
  | io (text : String)
  deriving DecidableEq, Repr

def StoreError.message : StoreError → String
  | .encoding table column fault => s!"cannot encode {table}.{column}: {fault.message}"
  | .decoding table column cause => s!"cannot decode {table}.{column}: {cause.message}"
  | .corruptStream table offset reason =>
    s!"corrupt copy stream for {table} at offset {offset}: {reason}"
  | .typeMismatch expected found => s!"type mismatch: expected {expected}, found {found}"
  | .unknownColumn table column => s!"unknown column {column} in table {table}"
  | .malformedQuery table fault => s!"malformed query against {table}: {fault.message}"
  | .duplicateKey table id => s!"duplicate id {id} in table {table}"
  | .transport text => s!"transport error: {text}"
  | .io text => s!"I/O error: {text}"

namespace ColumnValue

instance : Inhabited ColumnValue := ⟨.null⟩

/-- The name of the kind of value. -/
def typeName : ColumnValue → String
  | .null => "null"
  | .int8 _ => "bigint"
  | .int4 _ => "integer"
  | .bool _ => "boolean"
  | .text _ => "text"
  | .bytea _ => "bytea"
  | .jsonb _ => "jsonb"
  | .int8Array _ => "bigint[]"
  | .enum _ => "enum"

def isNull : ColumnValue → Bool
  | .null => true
  | _ => false

/-- Whether a value can be written to a column of a type. An enum column takes any label. -/
def hasType : ColumnValue → ColumnType → Bool
  | .int8 _, .int8 => true
  | .int4 _, .int4 => true
  | .bool _, .bool => true
  | .text _, .text => true
  | .bytea _, .bytea => true
  | .jsonb _, .jsonb => true
  | .int8Array _, .int8Array => true
  | .enum _, .enum _ => true
  | _, _ => false

/-- Equality of fields, by which keys match: an empty field equals an empty one, and doubles inside a
document are compared as numbers. -/
def same : ColumnValue → ColumnValue → Bool
  | .jsonb a, .jsonb b => a.same b
  | a, b => a == b

/-- The error for a value of another type than expected. -/
def mismatch (expected : String) (v : ColumnValue) : StoreError :=
  .typeMismatch expected v.typeName

/-- The integer of a `bigint` field. -/
def readInt64 : ColumnValue → Except StoreError Int64
  | .int8 n => .ok n
  | v => .error (v.mismatch "bigint")

/-- The value of a `boolean` field. -/
def readBool : ColumnValue → Except StoreError Bool
  | .bool b => .ok b
  | v => .error (v.mismatch "boolean")

/-- The text or label of a field. -/
def readText : ColumnValue → Except StoreError String
  | .text s => .ok s
  | .enum s => .ok s
  | v => .error (v.mismatch "text")

/-- The integers of a `bigint[]` field. -/
def readInt64Array : ColumnValue → Except StoreError (List Int64)
  | .int8Array ns => .ok ns
  | v => .error (v.mismatch "bigint[]")

/-- A `bigint` field as the number of an entity. -/
def readEntityId (v : ColumnValue) : Except StoreError EntityId := v.readInt64.map EntityId.mk

/-- The integer of a `bigint` field that may be empty. -/
def readInt64? : ColumnValue → Except StoreError (Option Int64)
  | .null => .ok none
  | v => v.readInt64.map some

/-- The bytes of a `bytea` field that may be empty. -/
def readBytes? : ColumnValue → Except StoreError (Option (List UInt8))
  | .null => .ok none
  | .bytea bytes => .ok (some bytes)
  | v => .error (v.mismatch "bytea")

/-- The document of a `jsonb` field that may be empty. -/
def readDocument? : ColumnValue → Except StoreError (Option Document)
  | .null => .ok none
  | .jsonb d => .ok (some d)
  | v => .error (v.mismatch "jsonb")

/-- The text or label of a field that may be empty. -/
def readText? : ColumnValue → Except StoreError (Option String)
  | .null => .ok none
  | v => v.readText.map some

/-- The field of an optional value: empty when there is none. -/
def ofOption {α : Type} (f : α → ColumnValue) : Option α → ColumnValue
  | some a => f a
  | none => .null

/-- The field of an entity's number. -/
def ofEntityId (id : EntityId) : ColumnValue := .int8 id.number

def ofLabel {α : Type} [Label α] (a : α) : ColumnValue := .enum (label a)

end ColumnValue

def Row.at (row : Row) (i : Nat) : ColumnValue := row[i]?.getD .null

end LedgerHistory
