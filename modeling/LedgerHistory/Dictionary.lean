/-!
# Dictionaries that remember their order

A `Dictionary` holds one value per key and lists its keys in the order in which they were first
given a value. Giving a known key a new value keeps its place.
-/

namespace LedgerHistory

/-- The entries of a dictionary, oldest key first. -/
structure Dictionary (κ α : Type) where
  entries : List (κ × α) := []
  deriving Repr

namespace Dictionary

variable {κ α β : Type} [DecidableEq κ]

/-- The dictionary without entries. -/
def empty : Dictionary κ α := ⟨[]⟩

instance : EmptyCollection (Dictionary κ α) := ⟨empty⟩

instance : Inhabited (Dictionary κ α) := ⟨empty⟩

/-- The value that a list of entries gives to a key: that of the first entry with the key. -/
def find? (k : κ) : List (κ × α) → Option α
  | [] => none
  | (k', a) :: rest => if k' = k then some a else find? k rest

/-- A list of entries in which `k` has the value `a`: in its old place, or else at the end. -/
def put (k : κ) (a : α) : List (κ × α) → List (κ × α)
  | [] => [(k, a)]
  | (k', a') :: rest => if k' = k then (k, a) :: rest else (k', a') :: put k a rest

/-- The value of a key. -/
def get? (d : Dictionary κ α) (k : κ) : Option α := find? k d.entries

/-- The value of a key, or `a` when the key has none. -/
def getD (d : Dictionary κ α) (k : κ) (a : α) : α := (d.get? k).getD a

def contains (d : Dictionary κ α) (k : κ) : Bool := (d.get? k).isSome

/-- Gives a key a value. -/
def insert (d : Dictionary κ α) (k : κ) (a : α) : Dictionary κ α := ⟨put k a d.entries⟩

/-- Takes a key away. -/
def erase (d : Dictionary κ α) (k : κ) : Dictionary κ α := ⟨d.entries.filter (·.1 ≠ k)⟩

/-- The keys, oldest first. -/
def keys (d : Dictionary κ α) : List κ := d.entries.map (·.1)

/-- The values, in the order of their keys. -/
def values (d : Dictionary κ α) : List α := d.entries.map (·.2)

def size (d : Dictionary κ α) : Nat := d.entries.length

/-- The dictionary in which each listed key has the value listed last for it. -/
def ofList (entries : List (κ × α)) : Dictionary κ α :=
  entries.foldl (fun d e => d.insert e.1 e.2) empty

omit [DecidableEq κ] in
/-- Changes every value, keeping the keys in place. -/
def map (f : κ → α → β) (d : Dictionary κ α) : Dictionary κ β :=
  ⟨d.entries.map fun e => (e.1, f e.1 e.2)⟩

theorem find?_put (k k' : κ) (a : α) (es : List (κ × α)) :
    find? k' (put k a es) = if k = k' then some a else find? k' es := by
  induction es with
  | nil => simp [put, find?]
  | cons e es ih =>
    obtain ⟨x, b⟩ := e
    by_cases hx : x = k
    · subst hx
      by_cases hk : x = k' <;> simp [put, find?, hk]
    · by_cases hk : x = k'
      · subst hk
        simp [put, find?, hx, Ne.symm hx]
      · simp [put, find?, hx, hk, ih]

@[simp] theorem get?_insert (d : Dictionary κ α) (k k' : κ) (a : α) :
    (d.insert k a).get? k' = if k = k' then some a else d.get? k' :=
  find?_put k k' a d.entries

@[simp] theorem get?_empty (k : κ) : (empty : Dictionary κ α).get? k = none := rfl

end Dictionary

end LedgerHistory
