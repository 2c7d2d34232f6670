import LedgerHistory.Text.Blank
import LedgerHistory.Text.Quoted

/-!
# Entities

An entity is named by its address on the ledger and by the number that the directory gave it.
-/

namespace LedgerHistory

/-- Why a text is no value of a ledger type. -/
inductive InvalidText
  | invalidAddress (text : String)
  | unknownLabel (kind value : String)
  deriving DecidableEq, Repr

def InvalidText.message : InvalidText → String
  | .invalidAddress text => s!"invalid entity address: {Text.quoted text}"
  | .unknownLabel kind value => s!"unknown {kind} value: {value}"

/-- Whether a text can be an address: it is not empty and holds no blank. -/
def isAddress (text : String) : Bool := !text.toList.isEmpty && !text.toList.any Text.isBlank

/-- The address of an entity, as the ledger writes it. -/
structure Address where
  text : String
  isAddress : isAddress text
  deriving DecidableEq

namespace Address

def ofString (text : String) : Except InvalidText Address :=
  if h : LedgerHistory.isAddress text then .ok ⟨text, h⟩ else .error (.invalidAddress text)

/-- What the addresses begin with that only have a place inside another entity. -/
def internalMark : String := "internal_"

/-- Whether the entity can be addressed at the top level. -/
def isGlobal (a : Address) : Bool := !(internalMark.toList.isPrefixOf a.text.toList)

theorem ofString_text (a : Address) : ofString a.text = .ok a := by
  simp [ofString, a.isAddress]

end Address

/-- The number that the directory gave an entity. -/
structure EntityId where
  number : Int64
  deriving DecidableEq, Repr

instance : Inhabited EntityId := ⟨⟨0⟩⟩

/-- An entity with its number. -/
structure Entity where
  address : Address
  id : EntityId
  /-- The address itself for a global entity; the owner's, where known, for an internal one. -/
  globalAddress : Option Address
  /-- The state version at which the entity was first seen. -/
  stateVersion : Int64
  deriving DecidableEq

namespace Entity

/-- A global entity is its own global address. -/
def global (address : Address) (id : EntityId) (stateVersion : Int64) : Entity :=
  ⟨address, id, some address, stateVersion⟩

/-- An internal entity, with the global address of its owner if that is known. -/
def internal (address : Address) (id : EntityId) (owner : Option Address)
    (stateVersion : Int64) : Entity :=
  ⟨address, id, owner, stateVersion⟩

/-- Whether the entity can be addressed at the top level. -/
def isGlobal (e : Entity) : Bool := e.address.isGlobal

end Entity

end LedgerHistory
