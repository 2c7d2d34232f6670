import LedgerHistory.Json.Source

/-!
# Decoding

A decoder walks a `Source` in the order of the text and reports what it meets first: a value of the
wrong shape or a fault of the text. It takes a record as an object of fields or as an array of their
values in order of declaration.
-/

namespace LedgerHistory

/-- Why a source does not decode. -/
inductive DecodeError
  | fault (f : Fault)
  | missingField (name : String)
  | duplicateField (name : String)
  | unknownVariant (found : String) (expected : List String)
  | noVariant (type : String)
  | invalidValue
  /-- A value of the right shape that its type refuses. -/
  | rejected (reason : String)
  deriving DecidableEq, Repr

namespace DecodeError

/-- A name between backticks. -/
def ticked (name : String) : String := "`" ++ name ++ "`"

/-- The names that may stand in a place. -/
def expectation : List String → String
  | [a] => ticked a
  | [a, b] => ticked a ++ " or " ++ ticked b
  | names => "one of " ++ String.intercalate ", " (names.map ticked)

/-- The wording of an error, except for faults of the text. -/
def message? : DecodeError → Option String
  | .fault _ => none
  | .missingField name => some ("missing field " ++ ticked name)
  | .duplicateField name => some ("duplicate field " ++ ticked name)
  | .unknownVariant found expected =>
    some ("unknown variant " ++ ticked found ++ ", expected " ++ expectation expected)
  | .noVariant type => some ("data did not match any variant of untagged enum " ++ type)
  | .invalidValue => some "invalid value"
  | .rejected reason => some reason

end DecodeError

/-- Where a source comes from. -/
inductive Origin
  /-- A text being read, which may nest some levels deeper. -/
  | text (depth : Nat)
  /-- A value. -/
  | value
  /-- Part of a text or value read ahead, because its shape depends on a part that may stand behind.
  There a variant may also be told by its number. -/
  | ahead
  deriving DecidableEq

namespace Origin

/-- The nesting that an origin allows. -/
def nesting : Origin → Source.Nesting
  | .text d => some d
  | _ => none

/-- The origin of the parts of a container. -/
def descend : Origin → Except DecodeError Origin
  | .text 0 => .error (.fault .malformed)
  | .text (d + 1) => .ok (.text d)
  | o => .ok o

/-- The error for an array with more items than its record has fields: in a text the closing bracket
is missing. -/
def surplus : Origin → DecodeError
  | .text _ => .fault .malformed
  | _ => .invalidValue

end Origin

/-- A reader of sources. -/
abbrev Decoder (α : Type) := Origin → Source → Except DecodeError α

namespace Decoder

variable {α β σ τ : Type}

/-- A fault of the text as an error. -/
def ofFault : Except Fault α → Except DecodeError α
  | .ok a => .ok a
  | .error f => .error (.fault f)

/-- The error for a source of the wrong kind. A number or string is read before it is refused. -/
def mismatch : Source → DecodeError
  | .number (.error f) => .fault f
  | .string (.error f) => .fault f
  | .broken stop => .fault stop.taking
  | _ => .invalidValue

/-- Refuses some decoded values, or changes them. -/
def check (d : Decoder α) (f : α → Except DecodeError β) : Decoder β := fun o s => do f (← d o s)

def string : Decoder String
  | _, .string value => ofFault value
  | _, s => .error (mismatch s)

def bool : Decoder Bool
  | _, .bool b => .ok b
  | _, s => .error (mismatch s)

/-- An integer written as one. -/
def int : Decoder Int
  | _, .number (.ok (.int n _)) => .ok n
  | _, s => .error (mismatch s)

/-- An integer of 64 bits with a sign. -/
def int64 : Decoder Int64 := int.check fun n =>
  if Int64.minValue.toInt ≤ n ∧ n ≤ Int64.maxValue.toInt then .ok (Int64.ofInt n)
  else .error .invalidValue

/-- A natural number of 64 bits. -/
def nat64 : Decoder Nat := int.check fun n => if 0 ≤ n then .ok n.toNat else .error .invalidValue

/-- Null, or a value. -/
def optional (d : Decoder α) : Decoder (Option α)
  | _, .null => .ok none
  | o, s => (d o s).map some

/-- Any value, in canonical form. -/
def document : Decoder Document := fun o s => (ofFault (s.toJson o.nesting)).map Document.ofJson

/-- The items of an array in order. -/
def items (d : Decoder α) (o : Origin) : List Source → Except DecodeError (List α)
  | [] => .ok []
  | s :: rest => do
    let a ← d o s
    let as ← items d o rest
    return a :: as

def list (d : Decoder α) : Decoder (List α)
  | o, .array ss stop => do
    let as ← items d (← o.descend) ss
    ofFault (Source.stopFault stop)
    return as
  | _, s => .error (mismatch s)

/-! ## Records -/

/-- A field of a record that is being read into a state. -/
structure RecordField (σ : Type) where
  name : String
  /-- Whether the field has been read. -/
  isSet : σ → Bool
  read : Origin → Source → σ → Except DecodeError σ
  /-- Whether an array may end before it. -/
  mayEnd : Bool

/-- Reads the fields of an object. Unknown ones are skipped. -/
def readEntries (fields : List (RecordField σ)) (o : Origin) :
    List (Except Fault String × Source) → σ → Except DecodeError σ
  | [], st => .ok st
  | (name, s) :: rest, st => do
    let name ← ofFault name
    match fields.find? (·.name = name) with
    | none =>
      ofFault s.skip
      readEntries fields o rest st
    | some f =>
      if f.isSet st then .error (.duplicateField f.name)
      else readEntries fields o rest (← f.read o s st)

/-- Reads the fields off the items of an array. -/
def readItems (o : Origin) (stop : Option Stop) :
    List (RecordField σ) → List Source → σ → Except DecodeError (σ × List Source)
  | [], ss, st => .ok (st, ss)
  | f :: fields, [], st => do
    ofFault (Source.stopFault stop)
    if f.mayEnd then readItems o stop fields [] st else .error .invalidValue
  | f :: fields, s :: ss, st => do readItems o stop fields ss (← f.read o s st)

/-- A record, read field by field into a state and made of the last one. -/
def record (fields : List (RecordField σ)) (start : σ) (finish : σ → Except DecodeError α) : Decoder α
  | o, .object entries stop => do
    let st ← readEntries fields (← o.descend) entries start
    ofFault (Source.stopFault stop)
    finish st
  | o, .array ss stop => do
    let (st, rest) ← readItems (← o.descend) stop fields ss start
    let a ← finish st
    match rest with
    | [] => ofFault (Source.stopFault stop)
    | _ :: _ => .error o.surplus
    return a
  | _, s => .error (mismatch s)

/-- Refuses all but objects. -/
def objectOnly (d : Decoder α) : Decoder α
  | o, .object entries stop => d o (.object entries stop)
  | _, s => .error (mismatch s)

/-- The value of a field that must be there. -/
def required (name : String) : Option α → Except DecodeError α
  | some a => .ok a
  | none => .error (.missingField name)

/-! ## Variants -/

/-- How a variant is told. -/
inductive Tag
  | name (s : String)
  | index (n : Nat)

/-- Reads a tag. Only what has been read ahead may give a number. -/
def tag : Decoder Tag
  | _, .string value => (ofFault value).map .name
  | .ahead, .number (.ok (.int n _)) => if 0 ≤ n then .ok (.index n.toNat) else .error .invalidValue
  | _, s => .error (mismatch s)

/-- The variant that a tag tells out of those with the given names. -/
def variant (variants : List (String × τ)) : Tag → Except DecodeError τ
  | .name s =>
    match variants.find? (·.1 = s) with
    | some v => .ok v.2
    | none => .error (.unknownVariant s (variants.map (·.1)))
  | .index n =>
    match variants[n]? with
    | some v => .ok v.2
    | none => .error .invalidValue

/-- The name of the field that holds the tag. -/
def tagField : String := "type"

/-- Parts a tagged object into its tag and its other fields, which are read ahead. -/
def partEntries (toVariant : Tag → Except DecodeError τ) (o : Origin) :
    List (Except Fault String × Source) → Option τ →
      Except DecodeError (Option τ × List (Except Fault String × Source))
  | [], t => .ok (t, [])
  | (name, s) :: rest, t => do
    let name ← ofFault name
    if name = tagField then
      if t.isSome then .error (.duplicateField tagField)
      else partEntries toVariant o rest (some (← toVariant (← tag o s)))
    else
      let _ ← ofFault (s.toJson o.nesting)
      let (t, entries) ← partEntries toVariant o rest t
      return (t, (.ok name, s) :: entries)

/-- A variant told by a tag, which stands in a field of an object or in front of an array. -/
def tagged (toVariant : Tag → Except DecodeError τ) (content : τ → Decoder α) : Decoder α
  | o, .object entries stop => do
    let (t, rest) ← partEntries toVariant (← o.descend) entries none
    ofFault (Source.stopFault stop)
    let t ← required tagField t
    content t .ahead (.object rest none)
  | o, .array [] stop => do
    let _ ← o.descend
    ofFault (Source.stopFault stop)
    .error (.missingField tagField)
  | o, .array (s :: ss) stop => do
    let o ← o.descend
    let t ← toVariant (← tag o s)
    let _ ← ofFault (Source.toItems o.nesting ss)
    ofFault (Source.stopFault stop)
    content t .ahead (.array ss none)
  | _, s => .error (mismatch s)

/-- A variant without fields: an object's fields are of no account, an array must be empty. -/
def noFields (a : α) : Decoder α
  | _, .array (_ :: _) _ => .error .invalidValue
  | _, .array [] _ => .ok a
  | _, .object _ _ => .ok a
  | _, s => .error (mismatch s)

/-- A variant without fields, told by its name alone or as the one field of an object, whose value is
empty. -/
def label (variants : List (String × τ)) : Decoder τ
  | _, .string value => do variant variants (.name (← ofFault value))
  | _, .object [(name, s)] _ => do
    let v ← variant variants (.name (← ofFault name))
    match s with
    | .null => return v
    | .object [] _ => return v
    | s => .error (mismatch s)
  | _, s => .error (mismatch s)

/-- The first decoder to succeed on a source read ahead, or `noVariant`. -/
def firstOf (type : String) : List (Decoder α) → Source → Except DecodeError α
  | [], _ => .error (.noVariant type)
  | d :: ds, s =>
    match d .ahead s with
    | .ok a => .ok a
    | .error _ => firstOf type ds s

/-- One of several shapes, tried in order on the source read ahead. -/
def oneOf (type : String) (ds : List (Decoder α)) : Decoder α := fun o s => do
  let _ ← ofFault (s.toJson o.nesting)
  firstOf type ds s

/-! ## Whole inputs -/

def ofValue (d : Decoder α) (j : Json) : Except DecodeError α := d .value (.ofJson j)

/-- Decodes a text, behind which only blanks may stand. -/
def ofText (d : Decoder α) (text : String) : Except DecodeError α := do
  let t := Source.ofString text
  let a ← d (.text Json.maxDepth) t.source
  if t.isWhole then return a else .error (.fault .malformed)

end Decoder

end LedgerHistory
