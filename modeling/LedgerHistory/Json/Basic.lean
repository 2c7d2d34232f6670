import LedgerHistory.Number.Binary64

/-!
# JSON values

A `Json` keeps the fields of an object in the order of writing. A `Document` is a value in canonical
form: the fields of every object have distinct names in increasing order. Of two fields with one name
the later counts. Main statement: `Json.isCanonical_canonical`.
-/

namespace LedgerHistory

/-- Whether an integer is written as one: it fits 64 bits, with or without a sign. -/
def IsWord (n : Int) : Prop := -0x8000000000000000 ≤ n ∧ n < 0x10000000000000000

instance (n : Int) : Decidable (IsWord n) := inferInstanceAs (Decidable (_ ∧ _))

/-- A number of a JSON text: a 64-bit integer, or else a double. -/
inductive Number
  | int (n : Int) (isWord : IsWord n)
  | float (x : Binary64)
  deriving DecidableEq

namespace Number

/-- A number for an integer, a double where the integer is no word. -/
def ofInt (n : Int) : Number :=
  if h : IsWord n then .int n h
  else if n < 0 then .float (Binary64.ofNat n.natAbs).neg else .float (Binary64.ofNat n.natAbs)

/-- Numeric equality, which tells an integer from a double of the same value. -/
def same : Number → Number → Bool
  | .int m _, .int n _ => m == n
  | .float x, .float y => x.same y
  | _, _ => false

end Number

/-- A JSON value. -/
inductive Json
  | null
  | bool (b : Bool)
  | number (n : Number)
  | string (s : String)
  | array (items : List Json)
  | object (fields : List (String × Json))

namespace Json

instance : Inhabited Json := ⟨.null⟩

def ofInt (n : Int) : Json := .number (.ofInt n)

/-- The value of a natural number. -/
def ofNat (n : Nat) : Json := ofInt n

/-- The value of an optional part: null when there is none. -/
def ofOption {α : Type} (f : α → Json) : Option α → Json
  | some a => f a
  | none => .null

/-- The value of the field with a name. -/
def field? (name : String) : Json → Option Json
  | .object fields => (fields.reverse.find? (·.1 = name)).map (·.2)
  | _ => none

mutual

/-- Decides equality of values. -/
def decEq : (a b : Json) → Decidable (a = b)
  | .null, .null => isTrue rfl
  | .bool a, .bool b => if h : a = b then isTrue (by rw [h]) else isFalse (by simpa using h)
  | .number a, .number b => if h : a = b then isTrue (by rw [h]) else isFalse (by simpa using h)
  | .string a, .string b => if h : a = b then isTrue (by rw [h]) else isFalse (by simpa using h)
  | .array as, .array bs =>
    match decEqItems as bs with
    | isTrue h => isTrue (by rw [h])
    | isFalse h => isFalse (by simpa using h)
  | .object as, .object bs =>
    match decEqFields as bs with
    | isTrue h => isTrue (by rw [h])
    | isFalse h => isFalse (by simpa using h)
  | .null, .bool _ | .null, .number _ | .null, .string _ | .null, .array _ | .null, .object _
  | .bool _, .null | .bool _, .number _ | .bool _, .string _ | .bool _, .array _
  | .bool _, .object _ | .number _, .null | .number _, .bool _ | .number _, .string _
  | .number _, .array _ | .number _, .object _ | .string _, .null | .string _, .bool _
  | .string _, .number _ | .string _, .array _ | .string _, .object _ | .array _, .null
  | .array _, .bool _ | .array _, .number _ | .array _, .string _ | .array _, .object _
  | .object _, .null | .object _, .bool _ | .object _, .number _ | .object _, .string _
  | .object _, .array _ => isFalse nofun

/-- Decides equality of lists of values. -/
def decEqItems : (as bs : List Json) → Decidable (as = bs)
  | [], [] => isTrue rfl
  | [], _ :: _ | _ :: _, [] => isFalse nofun
  | a :: as, b :: bs =>
    match decEq a b with
    | isFalse h => isFalse fun e => h (List.cons.inj e).1
    | isTrue h =>
      match decEqItems as bs with
      | isTrue h' => isTrue (by rw [h, h'])
      | isFalse h' => isFalse fun e => h' (List.cons.inj e).2

/-- Decides equality of lists of fields. -/
def decEqFields : (as bs : List (String × Json)) → Decidable (as = bs)
  | [], [] => isTrue rfl
  | [], _ :: _ | _ :: _, [] => isFalse nofun
  | (k, a) :: as, (l, b) :: bs =>
    if hk : k = l then
      match decEq a b with
      | isFalse h => isFalse fun e => h (by simpa using (Prod.mk.inj (List.cons.inj e).1).2)
      | isTrue h =>
        match decEqFields as bs with
        | isTrue h' => isTrue (by rw [hk, h, h'])
        | isFalse h' => isFalse fun e => h' (List.cons.inj e).2
    else isFalse fun e => hk (Prod.mk.inj (List.cons.inj e).1).1

end

instance : DecidableEq Json := decEq

mutual

/-- Equality of values, with doubles compared as numbers. -/
def same : Json → Json → Bool
  | .null, .null => true
  | .bool a, .bool b => a == b
  | .number a, .number b => a.same b
  | .string a, .string b => a == b
  | .array as, .array bs => sameItems as bs
  | .object as, .object bs => sameFields as bs
  | _, _ => false

/-- Equality of lists of values, with doubles compared as numbers. -/
def sameItems : List Json → List Json → Bool
  | [], [] => true
  | a :: as, b :: bs => same a b && sameItems as bs
  | _, _ => false

/-- Equality of lists of fields, with doubles compared as numbers. -/
def sameFields : List (String × Json) → List (String × Json) → Bool
  | [], [] => true
  | (k, a) :: as, (l, b) :: bs => k == l && same a b && sameFields as bs
  | _, _ => false

end

/-- Whether the names of fields increase strictly. -/
def namesIncrease : List (String × Json) → Bool
  | [] => true
  | [_] => true
  | (k, _) :: (l, b) :: rest => k < l && namesIncrease ((l, b) :: rest)

mutual

/-- Whether the fields of every object inside have distinct names in increasing order. -/
def isCanonical : Json → Bool
  | .array items => areCanonical items
  | .object fields => namesIncrease fields && fieldsAreCanonical fields
  | _ => true

/-- Whether every item is in canonical form. -/
def areCanonical : List Json → Bool
  | [] => true
  | j :: rest => isCanonical j && areCanonical rest

/-- Whether every field's value is in canonical form. -/
def fieldsAreCanonical : List (String × Json) → Bool
  | [] => true
  | (_, j) :: rest => isCanonical j && fieldsAreCanonical rest

end

/-- Puts a field into its place among fields in increasing order, in place of one with its name. -/
def insertField (k : String) (j : Json) : List (String × Json) → List (String × Json)
  | [] => [(k, j)]
  | (l, i) :: rest =>
    if k < l then (k, j) :: (l, i) :: rest
    else if k = l then (k, j) :: rest
    else (l, i) :: insertField k j rest

mutual

def canonical : Json → Json
  | .array items => .array (canonicalItems items)
  | .object fields => .object (canonicalFields [] fields)
  | j => j

def canonicalItems : List Json → List Json
  | [] => []
  | j :: rest => canonical j :: canonicalItems rest

/-- Puts fields, each in canonical form, among those in place, the later over the earlier. -/
def canonicalFields (placed : List (String × Json)) : List (String × Json) → List (String × Json)
  | [] => placed
  | (k, j) :: rest => canonicalFields (insertField k (canonical j) placed) rest

end

/-- Of two names that differ, one is the lesser. -/
theorem lt_of_not_lt_of_ne {k l : String} (h : ¬k < l) (hne : k ≠ l) : l < k :=
  Decidable.byContradiction fun h' => hne (String.le_antisymm h' h)

theorem namesIncrease_insertField {k : String} {j : Json} {fs : List (String × Json)}
    (h : namesIncrease fs) : namesIncrease (insertField k j fs) := by
  fun_induction insertField k j fs with
  | case1 => rfl
  | case2 l i rest hk => simp [namesIncrease, hk, h]
  | case3 i rest hk =>
    cases rest with
    | nil => rfl
    | cons e rest => simpa [namesIncrease] using h
  | case4 l i rest hk hne ih =>
    cases rest with
    | nil => simpa [insertField, namesIncrease] using lt_of_not_lt_of_ne hk hne
    | cons e rest =>
      obtain ⟨m, i'⟩ := e
      simp only [namesIncrease, Bool.and_eq_true, decide_eq_true_eq] at h
      have ih := ih h.2
      simp only [insertField] at ih ⊢
      split
      · rename_i hm
        simpa [namesIncrease, hm, h.2] using lt_of_not_lt_of_ne hk hne
      · split
        · simp_all [namesIncrease]
        · simp_all [namesIncrease]

theorem fieldsAreCanonical_insertField {k : String} {j : Json} {fs : List (String × Json)}
    (hj : isCanonical j) (h : fieldsAreCanonical fs) : fieldsAreCanonical (insertField k j fs) := by
  fun_induction insertField k j fs <;> simp_all [fieldsAreCanonical]

mutual

theorem isCanonical_canonical (j : Json) : isCanonical (canonical j) := by
  match j with
  | .null | .bool _ | .number _ | .string _ => rfl
  | .array items => simpa [canonical, isCanonical] using areCanonical_canonicalItems items
  | .object fields =>
    have h := canonicalFields_canonical [] fields rfl rfl
    simpa [canonical, isCanonical] using h

theorem areCanonical_canonicalItems (items : List Json) : areCanonical (canonicalItems items) := by
  match items with
  | [] => rfl
  | j :: rest =>
    simp [canonicalItems, areCanonical, isCanonical_canonical j, areCanonical_canonicalItems rest]

theorem canonicalFields_canonical (placed fields : List (String × Json))
    (hn : namesIncrease placed) (hc : fieldsAreCanonical placed) :
    namesIncrease (canonicalFields placed fields) ∧
      fieldsAreCanonical (canonicalFields placed fields) := by
  match fields with
  | [] => exact ⟨hn, hc⟩
  | (k, j) :: rest =>
    exact canonicalFields_canonical _ rest (namesIncrease_insertField hn)
      (fieldsAreCanonical_insertField (isCanonical_canonical j) hc)

end

end Json

/-- A JSON value in canonical form. -/
structure Document where
  value : Json
  isCanonical : value.isCanonical
  deriving DecidableEq

namespace Document

/-- The canonical form of a value. -/
def ofJson (j : Json) : Document := ⟨j.canonical, j.isCanonical_canonical⟩

instance : Inhabited Document := ⟨⟨.null, rfl⟩⟩

/-- Equality with doubles compared as numbers. -/
def same (a b : Document) : Bool := a.value.same b.value

end Document

end LedgerHistory
