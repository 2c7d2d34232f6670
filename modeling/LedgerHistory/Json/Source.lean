import LedgerHistory.Json.Basic
import LedgerHistory.Text.Digits

/-!
# JSON source text

A `Source` is what a text holds as far as it can be read. Where the text breaks off, the tree holds
the reason in that place, so a reader that walks the tree in order meets a wrong value before a
fault that stands behind it. A reader that only skips a value is less strict about numbers and
escapes than one that takes it, so a faulty number or string holds both views.
-/

namespace LedgerHistory

/-- Why a text is no JSON. -/
inductive Fault
  /-- A character stands where none of its kind can. -/
  | malformed
  /-- The text ends too early. -/
  | truncated
  deriving DecidableEq, Repr

/-- The fault that ends a text, as met by a reader that takes the value and by one that skips it. -/
structure Stop where
  taking : Fault
  skipping : Fault
  deriving DecidableEq, Repr

/-- The same fault for both readers. -/
def Stop.of (f : Fault) : Stop := ⟨f, f⟩

/-- A JSON text, as far as it can be read. A container with a `stop` breaks off behind its last part;
one whose last part breaks off has none of its own. A comma with nothing behind it begins a part. -/
inductive Source
  | null
  | bool (b : Bool)
  | number (value : Except Fault Number)
  | string (value : Except Fault String)
  | array (items : List Source) (stop : Option Stop)
  | object (fields : List (Except Fault String × Source)) (stop : Option Stop)
  | broken (stop : Stop)

open Text (hexValue? isDigit numeral)

namespace Source

mutual

def ofJson : Json → Source
  | .null => .null
  | .bool b => .bool b
  | .number n => .number (.ok n)
  | .string s => .string (.ok s)
  | .array items => .array (ofItems items) none
  | .object fields => .object (ofFields fields) none

def ofItems : List Json → List Source
  | [] => []
  | j :: rest => ofJson j :: ofItems rest

def ofFields : List (String × Json) → List (Except Fault String × Source)
  | [] => []
  | (k, j) :: rest => (.ok k, ofJson j) :: ofFields rest

end

/-- How many levels deeper a value may nest: any number, or those that are left. -/
abbrev Nesting := Option Nat

/-- What is left one level down. -/
def Nesting.descend : Nesting → Except Fault Nesting
  | none => .ok none
  | some 0 => .error .malformed
  | some (d + 1) => .ok (some d)

/-- The fault that stops a container, if one does. -/
def stopFault : Option Stop → Except Fault Unit
  | some s => .error s.taking
  | none => .ok ()

mutual

/-- The value that a text holds. -/
def toJson (nesting : Nesting) : Source → Except Fault Json
  | .null => .ok .null
  | .bool b => .ok (.bool b)
  | .number value => value.map .number
  | .string value => value.map .string
  | .array items stop => do
    let js ← toItems (← nesting.descend) items
    stopFault stop
    return .array js
  | .object fields stop => do
    let js ← toFields (← nesting.descend) fields
    stopFault stop
    return .object js
  | .broken stop => .error stop.taking

def toItems (nesting : Nesting) : List Source → Except Fault (List Json)
  | [] => .ok []
  | s :: rest => do
    let j ← toJson nesting s
    let js ← toItems nesting rest
    return j :: js

def toFields (nesting : Nesting) :
    List (Except Fault String × Source) → Except Fault (List (String × Json))
  | [] => .ok []
  | (k, s) :: rest => do
    let k ← k
    let j ← toJson nesting s
    let js ← toFields nesting rest
    return (k, j) :: js

end

mutual

/-- The fault met by a reader that skips a value. It takes no notice of nesting, of numbers out of
range or of unpaired surrogates. -/
def skip : Source → Except Fault Unit
  | .null | .bool _ | .number _ | .string _ => .ok ()
  | .array items stop => do
    skipItems items
    match stop with
    | some s => .error s.skipping
    | none => .ok ()
  | .object fields stop => do
    skipFields fields
    match stop with
    | some s => .error s.skipping
    | none => .ok ()
  | .broken stop => .error stop.skipping

/-- The fault met in skipping items. -/
def skipItems : List Source → Except Fault Unit
  | [] => .ok ()
  | s :: rest => do skip s; skipItems rest

/-- The fault met in skipping fields. -/
def skipFields : List (Except Fault String × Source) → Except Fault Unit
  | [] => .ok ()
  | (_, s) :: rest => do skip s; skipFields rest

end

/-! ## Characters -/

def dropBlanks (cs : List Char) : List Char :=
  cs.dropWhile fun c => c = ' ' || c = '\n' || c = '\t' || c = '\r'

/-! ## Strings -/

/-- A string read up to its closing quote: its text for a reader that takes it, and what follows it
for a reader that skips it. -/
structure StringScan where
  text : Except Fault String
  rest : Except Fault (List Char)

/-- What a scan has read: the text, last character first, and a high surrogate that waits for its low
one; or the first fault. -/
abbrev StringState := Except Fault (List Char × Option Nat)

namespace StringState

/-- Adds a character. A waiting surrogate stays alone, which is a fault. -/
def push (c : Char) : StringState → StringState
  | .ok (cs, none) => .ok (c :: cs, none)
  | .ok (_, some _) => .error .malformed
  | .error f => .error f

/-- Adds a 16-bit unit. Surrogates must come in pairs, the high one first. -/
def pushUnit (n : Nat) : StringState → StringState
  | .ok (cs, none) =>
    if 0xDC00 ≤ n ∧ n ≤ 0xDFFF then .error .malformed
    else if 0xD800 ≤ n ∧ n ≤ 0xDBFF then .ok (cs, some n)
    else .ok (Char.ofNat n :: cs, none)
  | .ok (cs, some high) =>
    if 0xDC00 ≤ n ∧ n ≤ 0xDFFF then
      .ok (Char.ofNat (0x10000 + (high - 0xD800) * 0x400 + (n - 0xDC00)) :: cs, none)
    else .error .malformed
  | .error f => .error f

/-- The scan that ends here, for good. -/
def finish (rest : List Char) : StringState → StringScan
  | .ok (cs, none) => ⟨.ok (String.ofList cs.reverse), .ok rest⟩
  | .ok (_, some _) => ⟨.error .malformed, .ok rest⟩
  | .error f => ⟨.error f, .ok rest⟩

/-- The scan that ends here with a fault. -/
def fail (f : Fault) : StringState → StringScan
  | .error g => ⟨.error g, .error f⟩
  | .ok _ => ⟨.error f, .error f⟩

end StringState

/-- The bytes that characters take. -/
def byteCount (cs : List Char) : Nat := cs.foldl (fun n c => n + c.utf8Size) 0

/-- Reads a string behind its opening quote. A `\u` escape that fewer than four bytes follow is cut
short, whatever they are. -/
def scanString (state : StringState) : List Char → StringScan
  | [] => state.fail .truncated
  | '"' :: rest => state.finish rest
  | ['\\'] => state.fail .truncated
  | '\\' :: '"' :: rest => scanString (state.push '"') rest
  | '\\' :: '\\' :: rest => scanString (state.push '\\') rest
  | '\\' :: '/' :: rest => scanString (state.push '/') rest
  | '\\' :: 'b' :: rest => scanString (state.push '\x08') rest
  | '\\' :: 'f' :: rest => scanString (state.push '\x0c') rest
  | '\\' :: 'n' :: rest => scanString (state.push '\n') rest
  | '\\' :: 'r' :: rest => scanString (state.push '\r') rest
  | '\\' :: 't' :: rest => scanString (state.push '\t') rest
  | '\\' :: 'u' :: a :: b :: c :: d :: rest =>
    match hexValue? a, hexValue? b, hexValue? c, hexValue? d with
    | some a, some b, some c, some d =>
      scanString (state.pushUnit (((a * 16 + b) * 16 + c) * 16 + d)) rest
    | _, _, _, _ => state.fail .malformed
  | '\\' :: 'u' :: short => state.fail (if byteCount short < 4 then .truncated else .malformed)
  | '\\' :: _ :: _ => state.fail .malformed
  | c :: rest => if c.toNat < 0x20 then state.fail .malformed else scanString (state.push c) rest

/-! ## Numbers -/

/-- The parts of a number as written. -/
structure Literal where
  negative : Bool
  whole : List Char
  fraction : Option (List Char) := none
  exponent : Option (Bool × List Char) := none

/-- Takes digits as long as the number stays below `2 ^ 64`; the rest are left. -/
def takeDigits (n : Nat) : List Char → Nat × List Char
  | [] => (n, [])
  | d :: ds =>
    let m := n * 10 + (d.toNat - 48)
    if m < 0x10000000000000000 then takeDigits m ds else (n, d :: ds)

/-- The value of a number as written. Integers of at most 64 bits stay integers, except for a negative
zero. Of a double the digits count that fit 64 bits; there is no value when it is out of range. -/
def Literal.value? (l : Literal) : Option Number :=
  let n := numeral 10 l.whole
  let isInt := l.fraction.isNone && l.exponent.isNone && n < 0x10000000000000000
  if isInt && !l.negative then some (.ofInt n)
  else if isInt && 0 < n && n ≤ 0x8000000000000000 then some (.ofInt (-n))
  else
    let (n, dropped) := takeDigits 0 l.whole
    let (n, places) :=
      match l.fraction with
      | none => (n, 0)
      | some ds =>
        let (m, left) := takeDigits n ds
        (m, ds.length - left.length)
    let e : Int := dropped.length - places
    let e := match l.exponent with
      | none => e
      | some (true, ds) => e - numeral 10 ds
      | some (false, ds) => e + numeral 10 ds
    (Binary64.ofDecimal? n e).map fun x => .float (if l.negative then x.neg else x)

/-- A number read from a text: its value for a reader that takes it, and what follows it for one that
skips it. -/
structure NumberScan where
  value : Except Fault Number
  rest : Except Fault (List Char)

/-- The scan of a complete number. -/
def Literal.scan (l : Literal) (rest : List Char) : NumberScan :=
  ⟨match l.value? with
    | some n => .ok n
    | none => .error .malformed, .ok rest⟩

/-- The scan that breaks off where a digit must stand. A reader that skips tells no early end from a
wrong character. -/
def missingDigit (rest : List Char) : NumberScan :=
  ⟨.error (if rest.isEmpty then .truncated else .malformed), .error .malformed⟩

/-- Reads the exponent, if there is one. -/
def scanExponent (l : Literal) (cs : List Char) : NumberScan :=
  match cs with
  | c :: rest =>
    if c = 'e' ∨ c = 'E' then
      let (negative, rest) := match rest with
        | '+' :: r => (false, r)
        | '-' :: r => (true, r)
        | r => (false, r)
      match rest.takeWhile isDigit with
      | [] => missingDigit rest
      | ds => { l with exponent := some (negative, ds) }.scan (rest.dropWhile isDigit)
    else l.scan cs
  | [] => l.scan []

/-- Reads the fraction, if there is one, and the exponent. -/
def scanFraction (l : Literal) : List Char → NumberScan
  | '.' :: rest =>
    match rest.takeWhile isDigit with
    | [] => missingDigit rest
    | ds => scanExponent { l with fraction := some ds } (rest.dropWhile isDigit)
  | cs => scanExponent l cs

/-- Reads a number behind its sign. -/
def scanNumber (negative : Bool) : List Char → NumberScan
  | '0' :: rest =>
    if (rest.head?.map isDigit).getD false then ⟨.error .malformed, .error .malformed⟩
    else scanFraction ⟨negative, ['0'], none, none⟩ rest
  | cs =>
    match cs.takeWhile isDigit with
    | [] => missingDigit cs
    | ds => scanFraction ⟨negative, ds, none, none⟩ (cs.dropWhile isDigit)

/-! ## Values -/

/-- A value read from a text, and what follows it unless the text breaks off. -/
structure Scan where
  source : Source
  rest : Option (List Char)

/-- The scan of a text that breaks off. -/
def Scan.fail (f : Fault) : Scan := ⟨.broken (.of f), none⟩

/-- Reads the rest of a word. -/
def scanWord (value : Source) : List Char → List Char → Scan
  | [], rest => ⟨value, some rest⟩
  | _ :: _, [] => .fail .truncated
  | w :: word, c :: rest => if c = w then scanWord value word rest else .fail .malformed

/-- The parts of a container, what stops it, and what follows it unless the text breaks off. -/
structure PartsScan (α : Type) where
  parts : List α
  stop : Option Stop := none
  rest : Option (List Char) := none

/-- Breaks off a container. -/
def PartsScan.fail {α : Type} (f : Fault) : PartsScan α := ⟨[], some (.of f), none⟩

/-- Puts a part in front. -/
def PartsScan.cons {α : Type} (a : α) (s : PartsScan α) : PartsScan α := { s with parts := a :: s.parts }

mutual

/-- Reads a value. The fuel bounds the number of values and parts. -/
def scan (fuel : Nat) (cs : List Char) : Scan :=
  match fuel with
  | 0 => .fail .truncated
  | n + 1 =>
    match dropBlanks cs with
    | [] => .fail .truncated
    | 'n' :: rest => scanWord .null ['u', 'l', 'l'] rest
    | 't' :: rest => scanWord (.bool true) ['r', 'u', 'e'] rest
    | 'f' :: rest => scanWord (.bool false) ['a', 'l', 's', 'e'] rest
    | '"' :: rest =>
      let s := scanString (.ok ([], none)) rest
      match s.rest, s.text with
      | .ok rest, text => ⟨.string text, some rest⟩
      | .error f, .error g => ⟨.broken ⟨g, f⟩, none⟩
      | .error f, .ok _ => .fail f
    | '[' :: rest =>
      let p := scanItems n true rest
      ⟨.array p.parts p.stop, p.rest⟩
    | '{' :: rest =>
      let p := scanFields n true rest
      ⟨.object p.parts p.stop, p.rest⟩
    | c :: rest =>
      if c = '-' ∨ isDigit c then
        let s := if c = '-' then scanNumber true rest else scanNumber false (c :: rest)
        match s.rest, s.value with
        | .ok rest, value => ⟨.number value, some rest⟩
        | .error f, .error g => ⟨.broken ⟨g, f⟩, none⟩
        | .error f, .ok _ => .fail f
      else .fail .malformed

/-- Reads items up to the closing bracket. -/
def scanItems (fuel : Nat) (first : Bool) (cs : List Char) : PartsScan Source :=
  match fuel with
  | 0 => .fail .truncated
  | n + 1 =>
    match dropBlanks cs with
    | [] => .fail .truncated
    | ']' :: rest => ⟨[], none, some rest⟩
    | c :: rest =>
      if first then
        let v := scan n (c :: rest)
        match v.rest with
        | none => ⟨[v.source], none, none⟩
        | some rest => (scanItems n false rest).cons v.source
      else if c = ',' then
        match dropBlanks rest with
        | [] => ⟨[.broken (.of .truncated)], none, none⟩
        | ']' :: _ => .fail .malformed
        | cs =>
          let v := scan n cs
          match v.rest with
          | none => ⟨[v.source], none, none⟩
          | some rest => (scanItems n false rest).cons v.source
      else .fail .malformed

/-- Reads fields up to the closing brace. -/
def scanFields (fuel : Nat) (first : Bool) (cs : List Char) :
    PartsScan (Except Fault String × Source) :=
  match fuel with
  | 0 => .fail .truncated
  | n + 1 =>
    match dropBlanks cs with
    | [] => .fail .truncated
    | '}' :: rest => ⟨[], none, some rest⟩
    | c :: rest =>
      if first then scanField n (c :: rest)
      else if c = ',' then
        match dropBlanks rest with
        | [] => .fail .truncated
        | cs => scanField n cs
      else .fail .malformed

/-- Reads a field, which must begin with its name, and those behind it. -/
def scanField (fuel : Nat) (cs : List Char) : PartsScan (Except Fault String × Source) :=
  match fuel with
  | 0 => .fail .truncated
  | n + 1 =>
    match cs with
    | '"' :: rest =>
      let s := scanString (.ok ([], none)) rest
      match s.rest, s.text with
      | .error f, .error g => ⟨[], some ⟨g, f⟩, none⟩
      | .error f, .ok _ => .fail f
      | .ok rest, name =>
        match dropBlanks rest with
        | ':' :: rest =>
          let v := scan n rest
          match v.rest with
          | none => ⟨[(name, v.source)], none, none⟩
          | some rest => (scanFields n false rest).cons (name, v.source)
        | [] => ⟨[(name, .broken (.of .truncated))], none, none⟩
        | _ => ⟨[(name, .broken (.of .malformed))], none, none⟩
    | _ => .fail .malformed

end

/-- A text: the value that it begins with, and whether that is all of it. -/
structure Text where
  source : Source
  isWhole : Bool

def ofChars (cs : List Char) : Text :=
  let v := scan (2 * cs.length + 2) cs
  ⟨v.source, (v.rest.map fun rest => (dropBlanks rest).isEmpty).getD true⟩

def ofString (s : String) : Text := ofChars s.toList

end Source

/-- The deepest nesting that a text may have. -/
def Json.maxDepth : Nat := 127

def Json.ofChars (cs : List Char) : Except Fault Json :=
  let t := Source.ofChars cs
  match t.source.toJson (some Json.maxDepth) with
  | .error f => .error f
  | .ok j => if t.isWhole then .ok j else .error .malformed

def Json.ofString (s : String) : Except Fault Json := Json.ofChars s.toList

end LedgerHistory
