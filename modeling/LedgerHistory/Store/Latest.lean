import LedgerHistory.Store.Table

/-!
# The most recent row of each key

A query names key columns and lists key tuples. For each tuple it asks for the row with that key that
has the greatest state version, and of several such rows for the one with the greatest id.
-/

namespace LedgerHistory

/-- A batch of point-in-time lookups. -/
structure LatestQuery where
  table : Table
  keyColumns : List String
  keys : List Row := []
  /-- Rows with a greater state version do not count. -/
  bound : Option Int64 := none

namespace LatestQuery

/-- A fault of the query. -/
def malformed (q : LatestQuery) (f : QueryFault) : StoreError := .malformedQuery q.table.name f

/-- Whether a key may ask for a value in a column. -/
def fits (c : Column) (v : ColumnValue) : Bool := v.hasType c.type || (c.nullable && v.isNull)

/-- Checks a key tuple against its columns. -/
def checkKey (columns : List Column) (key : Row) : Except QueryFault Unit :=
  if key.length ≠ columns.length then .error (.wrongArity key.length columns.length)
  else
    match (key.zip columns).find? fun (v, c) => !fits c v with
    | some (v, c) => .error (.wrongType v.typeName c.type.sqlName)
    | none => .ok ()

/-- The key columns of a query whose key tuples all fit them. -/
def validColumns (q : LatestQuery) : Except StoreError (List Column) := do
  if q.keyColumns.isEmpty then throw (q.malformed .noKeyColumns)
  let columns ← q.keyColumns.mapM q.table.column
  q.keys.forM fun key => (checkKey columns key).mapError q.malformed
  return columns

/-- The types of the key columns of a valid query. -/
def validate (q : LatestQuery) : Except StoreError (List ColumnType) :=
  q.validColumns.map fun columns => columns.map (·.type)

/-- The key tuples, turned into one list for each key column. -/
def transposedKeys (q : LatestQuery) : List (List ColumnValue) :=
  (List.range q.keyColumns.length).map fun i => q.keys.map fun key => Row.at key i

/-- The condition that a key column matches. Empty fields match each other where the column may be
empty. -/
def keyCondition (q : LatestQuery) (name : String) : String :=
  match q.table.column name with
  | .ok c =>
    if c.nullable then name ++ " IS NOT DISTINCT FROM variables." ++ name
    else name ++ " = variables." ++ name
  | .error _ => name ++ " = variables." ++ name

/-- The SQL text that answers the whole batch with one lateral join. The parameters are the key
arrays, and then the bound if there is one. -/
def sql (q : LatestQuery) : Except StoreError String := do
  let types ← q.validate
  let unnest := types.mapIdx fun i t => s!"UNNEST(${i + 1}::{t.sqlName}[])"
  let bound := if q.bound.isSome then
      [s!"{stateVersionColumn} <= ${q.keyColumns.length + 1}"] else []
  let conditions := q.keyColumns.map q.keyCondition ++ bound
  return "WITH variables (" ++ String.intercalate ", " q.keyColumns ++ ") AS (\n    SELECT "
    ++ String.intercalate ", " unnest ++ "\n)\nSELECT t.*\nFROM variables\n"
    ++ "INNER JOIN LATERAL (\n    SELECT *\n    FROM " ++ q.table.name ++ "\n    WHERE "
    ++ String.intercalate " AND " conditions ++ "\n    ORDER BY " ++ stateVersionColumn
    ++ " DESC, " ++ idColumn ++ " DESC\n    LIMIT 1\n) t ON true;"

/-- A row that may be the answer, with its state version and id. -/
structure Candidate where
  row : Row
  version : Int64
  id : Int64

/-- Whether a row with a version and an id is more recent than a candidate. -/
def Candidate.isOlder (c : Candidate) (version id : Int64) : Bool :=
  c.version < version || (c.version = version && c.id < id)

/-- Where a table keeps what a query asks for. -/
structure Layout where
  key : List Nat
  version : Nat
  id : Nat

/-- Whether a row has a key. -/
def Layout.hasKey (l : Layout) (key row : Row) : Bool :=
  (l.key.zip key).all fun (i, v) => (Row.at row i).same v

/-- The more recent of a row and the best one so far. A row of another key or above the bound does
not count; of the others the version must be an integer, and the id too once the version is low
enough. -/
def Layout.improve (l : Layout) (bound : Option Int64) (key : Row) (best : Option Candidate)
    (row : Row) : Except StoreError (Option Candidate) := do
  if !l.hasKey key row then return best
  let version ← (Row.at row l.version).readInt64
  if bound.any (· < version) then return best
  let id ← (Row.at row l.id).readInt64
  match best with
  | none => return some ⟨row, version, id⟩
  | some c => return if c.isOlder version id then some ⟨row, version, id⟩ else best

/-- The most recent row of a key. -/
def Layout.best (l : Layout) (bound : Option Int64) (key : Row) (rows : List Row) :
    Except StoreError (Option Row) :=
  (rows.foldlM (l.improve bound key) none).map fun c => c.map (·.row)

/-- Where the table keeps what the query asks for. -/
def layout (q : LatestQuery) : Except StoreError Layout := do
  let key ← q.keyColumns.mapM q.table.positionOf
  let version ← q.table.positionOf stateVersionColumn
  let id ← q.table.positionOf idColumn
  return ⟨key, version, id⟩

/-- The answer out of given rows: the rows found, in the order of the keys. -/
def evaluate (q : LatestQuery) (rows : List Row) : Except StoreError (List Row) := do
  let _ ← q.validate
  let l ← q.layout
  let found ← q.keys.mapM fun key => l.best q.bound key rows
  return found.filterMap id

end LatestQuery

end LedgerHistory
