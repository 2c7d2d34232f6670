import LedgerHistory.Dictionary

/-!
# Configuration texts: values and tables

The values of a TOML text and how its tables grow. A table is named by a header, passed through on
the way to one, made by a dotted key or written between braces, and which of these it is decides what
may still be added to it. No key is given two values.
-/

namespace LedgerHistory

/-- How a table came about. -/
inductive Toml.TableOrigin
  | header
  /-- A longer header leads through it. -/
  | passed
  | dottedKey
  | braces
  deriving DecidableEq, Repr

/-- A value. Floats, dates and times are kept as written. -/
inductive Toml
  | string (s : String)
  | integer (n : Int64)
  | float (literal : String)
  | boolean (b : Bool)
  | datetime (literal : String)
  | array (items : List Toml)
  | table (origin : Toml.TableOrigin) (fields : Dictionary String Toml)
  /-- The tables of a header that is repeated, in order. -/
  | tables (items : List (Dictionary String Toml))

namespace Toml

abbrev Fields := Dictionary String Toml

/-- The fields that a key leads to, and the value once they are changed. Of several tables it is the
last; a table in braces is closed. -/
def enter? : Toml → Option (Fields × (Fields → Toml))
  | .table .braces _ => none
  | .table origin fields => some (fields, .table origin)
  | .tables items => do
    let last ← items.getLast?
    return (last, fun fields => .tables (items.dropLast ++ [fields]))
  | _ => none

/-- Whether a dotted key may lead through a value. What headers name or pass through may only be
passed through again, to a table `below`; what a header names alone is closed. -/
def admitsDottedKey (below : Bool) : Toml → Bool
  | .table .dottedKey _ => true
  | .table .passed _ => below
  | .tables _ => below
  | _ => false

/-- Gives a dotted key a value. -/
def assign (value : Toml) : List String → Fields → Option Fields
  | [], _ => none
  | [k], fields => if fields.contains k then none else some (fields.insert k value)
  | k :: path, fields =>
    match fields.get? k with
    | none => do return fields.insert k (.table .dottedKey (← assign value path .empty))
    | some t =>
      if t.admitsDottedKey (1 < path.length) then do
        let (inner, changed) ← t.enter?
        return fields.insert k (changed (← assign value path inner))
      else none

/-- A dotted key with its value. -/
abbrev Assignment := List String × Toml

/-- Gives dotted keys their values in order. -/
def assignAll (assignments : List Assignment) (fields : Fields) : Option Fields :=
  assignments.foldlM (fun fields a => assign a.2 a.1 fields) fields

/-- Changes the fields that a path of keys leads to. Tables that are not there are made. -/
def changeUnder (change : Fields → Option Fields) : List String → Fields → Option Fields
  | [], fields => change fields
  | k :: path, fields =>
    match fields.get? k with
    | none => do return fields.insert k (.table .passed (← changeUnder change path .empty))
    | some t => do
      let (inner, changed) ← t.enter?
      return fields.insert k (changed (← changeUnder change path inner))

/-- A header with the assignments behind it. -/
structure Section where
  /-- Whether the header may be repeated. -/
  repeated : Bool
  /-- The keys that lead to the one named. -/
  path : List String
  key : String
  assignments : List Assignment

/-- Puts a section's table under its key. A table that was passed through may still be named, once;
one of several goes behind those before it. -/
def Section.put (s : Section) (fields : Fields) : Option Fields := do
  if s.repeated then
    let fresh ← assignAll s.assignments .empty
    match fields.get? s.key with
    | none => return fields.insert s.key (.tables [fresh])
    | some (.tables items) => return fields.insert s.key (.tables (items ++ [fresh]))
    | some _ => none
  else
    match fields.get? s.key with
    | none => return fields.insert s.key (.table .header (← assignAll s.assignments .empty))
    | some (.table .passed inner) =>
      return fields.insert s.key (.table .header (← assignAll s.assignments inner))
    | some _ => none

/-- The fields of a text: its first assignments and its sections. -/
def assemble (first : List Assignment) (sections : List Section) : Option Fields := do
  sections.foldlM (fun fields s => changeUnder s.put s.path fields) (← assignAll first .empty)

end Toml

end LedgerHistory
