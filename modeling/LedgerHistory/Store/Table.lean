import LedgerHistory.Store.Field

/-!
# Tables

The exact schema of a table: its name and its columns, in the order in which rows are written.
-/

namespace LedgerHistory

structure Column where
  name : String
  type : ColumnType
  nullable : Bool := false
  deriving DecidableEq, Repr

structure Table where
  name : String
  columns : List Column
  deriving DecidableEq, Repr

/-- The column of the primary key. -/
def idColumn : String := "id"

/-- The column of the state version. -/
def stateVersionColumn : String := "from_state_version"

namespace Column

/-- A column in which every row has a value. -/
def required (name : String) (type : ColumnType) : Column := ⟨name, type, false⟩

/-- A column that may be empty. -/
def optional (name : String) (type : ColumnType) : Column := ⟨name, type, true⟩

end Column

namespace Table

/-- The number of fields of a row. -/
def arity (t : Table) : Nat := t.columns.length

/-- The position of the first column with a name. -/
def positionOf (t : Table) (name : String) : Except StoreError Nat :=
  match t.columns.findIdx? (·.name = name) with
  | some i => .ok i
  | none => .error (.unknownColumn t.name name)

/-- The first column with a name. -/
def column (t : Table) (name : String) : Except StoreError Column :=
  match t.columns.find? (·.name = name) with
  | some c => .ok c
  | none => .error (.unknownColumn t.name name)

def columnNames (t : Table) : List String := t.columns.map (·.name)

/-- The sequence that issues a table's ids, by the table's name. -/
def sequenceNameOf (table : String) : String := table ++ "_id_seq"

/-- The sequence that issues the table's ids. -/
def sequenceName (t : Table) : String := sequenceNameOf t.name

def bulkLoadStatement (t : Table) : String :=
  "COPY " ++ t.name ++ " (" ++ String.intercalate ", " t.columnNames
    ++ ") FROM STDIN (FORMAT BINARY)"

def columnDefinition (c : Column) : String :=
  "    " ++ c.name ++ " " ++ c.type.sqlName ++ (if c.nullable then "" else " NOT NULL")

/-- The statement that creates the table. -/
def definition (t : Table) : String :=
  "CREATE TABLE " ++ t.name ++ " (\n"
    ++ String.intercalate ",\n" (t.columns.map columnDefinition)
    ++ ",\n    PRIMARY KEY (" ++ idColumn ++ ")\n);"

end Table

end LedgerHistory
