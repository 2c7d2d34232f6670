import LedgerHistory.Aggregate.Row
import LedgerHistory.Invocation.KnownEntities

/-!
# Domains

What is particular to a family of substates: how a substate is read as a change, what tells the
entries of one entity apart, and how rows look. The rest is common to all domains.
-/

namespace LedgerHistory

/-- A row of history: a change of an entity, with the id and the state version that it got. -/
structure HistoryRow (χ : Type) where
  id : Int64
  stateVersion : Int64
  entity : EntityId
  change : χ
  deriving DecidableEq

/-- What a substate means to its domain: a change of one entry of the list, or of the singleton. -/
inductive Meaning (χ σ : Type)
  | entry (change : χ)
  | singleton (value : σ)

structure SingletonTable (σ : Type) where
  table : Table
  encode : HistoryRow σ → Row

/-- A domain whose entities have a list of entries, told apart by a key. -/
structure ListDomain where
  name : DomainName
  Key : Type
  decideKey : DecidableEq Key
  Change : Type
  Singleton : Type
  entryTable : Table
  /-- The columns of the entity and of the key. -/
  keyColumns : List String
  /-- The fields of a key. -/
  keyValues : Key → Row
  aggregateSchema : AggregateSchema
  singletonTable : Option (SingletonTable Singleton)
  /-- The meaning of a substate. There is none for a substate of another domain. -/
  meaningOf : Substate → KnownEntities → Except InvocationError (Option (Meaning Change Singleton))
  keyOf : Change → Key
  isDeletion : Change → Bool
  encodeEntry : HistoryRow Change → Row
  decodeEntry : Row → Except StoreError (HistoryRow Change)

namespace ListDomain

instance (d : ListDomain) : DecidableEq d.Key := d.decideKey

/-- A row of the domain's entries. -/
abbrev Entry (d : ListDomain) := HistoryRow d.Change

abbrev SingletonRow (d : ListDomain) := HistoryRow d.Singleton

/-- What tells an entry apart from all others of the domain. -/
abbrev EntryKey (d : ListDomain) := EntityId × d.Key

def entryKey (d : ListDomain) (e : d.Entry) : d.EntryKey := (e.entity, d.keyOf e.change)

/-- The tables that the domain writes to. -/
def tables (d : ListDomain) : List Table :=
  [d.entryTable, d.aggregateSchema.table] ++ (d.singletonTable.map (·.table)).toList

end ListDomain

/-- A domain of which only the history is kept. -/
structure PlainDomain where
  name : DomainName
  Change : Type
  table : Table
  /-- The meaning of a substate. There is none for a substate of another domain. -/
  meaningOf : Substate → Option Change
  encode : HistoryRow Change → Row

def readLabel (α : Type) [Label α] (t : Table) (column : String) (v : ColumnValue) :
    Except StoreError α := do
  let s ← v.readText
  (Label.parse s).mapError (.decoding t.name column)

/-- A label read out of a field that may be empty. -/
def readLabel? (α : Type) [Label α] (t : Table) (column : String) (v : ColumnValue) :
    Except StoreError (Option α) :=
  if v.isNull then .ok none else (readLabel α t column v).map some

/-- The columns that every history table begins with. -/
def historyColumns (entityColumn : String) : List Column :=
  [.required idColumn .int8, .required stateVersionColumn .int8, .required entityColumn .int8]

/-- The fields that every history row begins with. -/
def historyFields {χ : Type} (r : HistoryRow χ) : Row :=
  [.int8 r.id, .int8 r.stateVersion, .ofEntityId r.entity]

/-- An aggregate table without a singleton. -/
def listTable (name entityColumn : String) : AggregateSchema :=
  ⟨⟨name, historyColumns entityColumn ++ [.required "entry_ids" .int8Array]⟩, entityColumn,
    "entry_ids", none⟩

end LedgerHistory
