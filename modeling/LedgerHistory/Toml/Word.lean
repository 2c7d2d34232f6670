import LedgerHistory.Text.Digits
import LedgerHistory.Toml.Basic

/-!
# Configuration texts: values that stand bare

A word is a value that stands without quotes or brackets: a truth value, an integer, a float, a date
or a time.
-/

namespace LedgerHistory.Toml

open Text (isDigit isDigitOf numeral)

/-- A run of digits without the underscores that may stand between two of them. -/
def ungroup? (isDigit : Char → Bool) : List Char → Option (List Char)
  | [] => none
  | [d] => if isDigit d then some [d] else none
  | d :: '_' :: rest => if isDigit d then (ungroup? isDigit rest).map (d :: ·) else none
  | d :: rest => if isDigit d then (ungroup? isDigit rest).map (d :: ·) else none

/-- The digits of a whole number, which does not begin with a zero unless it is one. -/
def wholeDigits? (cs : List Char) : Option (List Char) :=
  match ungroup? isDigit cs with
  | some ('0' :: _ :: _) => none
  | ds => ds

/-- Whether a number is negative, and what follows its sign. -/
def splitSign : List Char → Bool × List Char
  | '-' :: cs => (true, cs)
  | '+' :: cs => (false, cs)
  | cs => (false, cs)

/-- A number by its sign and amount. -/
def signed (negative : Bool) (n : Nat) : Int := if negative then -n else n

/-! ## Integers -/

/-- An integer in base ten, or without a sign in another base. -/
def wholeNumber? : List Char → Option Int
  | '0' :: 'x' :: cs => (ungroup? (isDigitOf 16) cs).map fun ds => (numeral 16 ds : Int)
  | '0' :: 'o' :: cs => (ungroup? (isDigitOf 8) cs).map fun ds => (numeral 8 ds : Int)
  | '0' :: 'b' :: cs => (ungroup? (isDigitOf 2) cs).map fun ds => (numeral 2 ds : Int)
  | cs =>
    let (negative, cs) := splitSign cs
    (wholeDigits? cs).map fun ds => signed negative (numeral 10 ds)

/-- An integer of 64 bits. -/
def integer? (cs : List Char) : Option Int64 := do
  let n ← wholeNumber? cs
  if Int64.minValue.toInt ≤ n ∧ n ≤ Int64.maxValue.toInt then some (Int64.ofInt n) else none

/-! ## Floats -/

/-- Whether `digits * 10 ^ exponent` is rounded to infinity: it is no less than the middle between the
greatest double and the power of two above it. -/
def isTooGreat (digits : List Char) (exponent : Int) : Bool :=
  let n := numeral 10 digits
  let middle := Nat.pow 2 1024 - Nat.pow 2 970
  if n = 0 then false
  else if 400 < exponent then true
  else if 0 ≤ exponent then middle ≤ n * Nat.pow 10 exponent.toNat
  else if (-exponent).toNat < digits.length then middle * Nat.pow 10 (-exponent).toNat ≤ n
  else false

/-- The exponent behind a number, without one zero. -/
def exponent? : List Char → Option Int
  | [] => some 0
  | e :: cs =>
    if e = 'e' ∨ e = 'E' then
      let (negative, cs) := splitSign cs
      (ungroup? isDigit cs).map fun ds => signed negative (numeral 10 ds)
    else none

/-- Whether a character ends the digits before an exponent. -/
def beginsExponent (c : Char) : Bool := c = 'e' || c = 'E'

/-- Whether a word is a float: a whole number with a fraction, an exponent or both, or one of the words
for infinity and for no number. One that is rounded to positive infinity is refused. -/
def isFloat (cs : List Char) : Bool :=
  let (negative, cs) := splitSign cs
  let whole := cs.takeWhile fun c => c ≠ '.' && !beginsExponent c
  let fraction? := match cs.drop whole.length with
    | '.' :: rest => some (ungroup? isDigit (rest.takeWhile fun c => !beginsExponent c))
    | _ :: _ => some (some [])
    | [] => none
  cs = ['i', 'n', 'f'] || cs = ['n', 'a', 'n'] ||
  match wholeDigits? whole, fraction?, exponent? (cs.dropWhile fun c => !beginsExponent c) with
  | some ds, some (some fraction), some e =>
    negative || !isTooGreat (ds ++ fraction) (e - fraction.length)
  | _, _, _ => false

/-! ## Dates and times -/

/-- The number of digits that lies between two bounds. -/
def isWithin (low high : Nat) (ds : List Char) : Bool :=
  ds.all isDigit && low ≤ numeral 10 ds && numeral 10 ds ≤ high

/-- The number of days of a month. -/
def daysOf (year month : Nat) : Nat :=
  if month = 2 then
    if year % 4 = 0 ∧ (year % 100 ≠ 0 ∨ year % 400 = 0) then 29 else 28
  else if month = 4 ∨ month = 6 ∨ month = 9 ∨ month = 11 then 30
  else 31

/-- What follows a date. -/
def dropDate? : List Char → Option (List Char)
  | y₁ :: y₂ :: y₃ :: y₄ :: '-' :: m₁ :: m₂ :: '-' :: d₁ :: d₂ :: rest =>
    let days := daysOf (numeral 10 [y₁, y₂, y₃, y₄]) (numeral 10 [m₁, m₂])
    if [y₁, y₂, y₃, y₄].all isDigit ∧ isWithin 1 12 [m₁, m₂] ∧ isWithin 1 days [d₁, d₂] then some rest
    else none
  | _ => none

/-- What follows a time, the fraction of its second included. A minute may have a leap second. -/
def dropTime? : List Char → Option (List Char)
  | h₁ :: h₂ :: ':' :: m₁ :: m₂ :: ':' :: s₁ :: s₂ :: rest =>
    if isWithin 0 23 [h₁, h₂] ∧ isWithin 0 59 [m₁, m₂] ∧ isWithin 0 60 [s₁, s₂] then
      match rest with
      | '.' :: d :: rest => if isDigit d then some (rest.dropWhile isDigit) else none
      | rest => some rest
    else none
  | _ => none

/-- Whether a text is a distance from universal time, or empty. -/
def isOffset : List Char → Bool
  | [] | ['Z'] | ['z'] => true
  | [sign, h₁, h₂, ':', m₁, m₂] =>
    (sign = '+' || sign = '-') && isWithin 0 23 [h₁, h₂] && isWithin 0 59 [m₁, m₂]
  | _ => false

/-- Whether a word is a date, a time, or both with one of `T`, `t` and a blank between them. Only both
together may have an offset. -/
def isDatetime (cs : List Char) : Bool :=
  match dropDate? cs with
  | none => dropTime? cs = some []
  | some [] => true
  | some (c :: rest) => (c = 'T' || c = 't' || c = ' ') && (dropTime? rest).any isOffset

/-! ## Words -/

def ofWord? (cs : List Char) : Option Toml :=
  if cs = ['t', 'r', 'u', 'e'] then some (.boolean true)
  else if cs = ['f', 'a', 'l', 's', 'e'] then some (.boolean false)
  else if isDatetime cs then some (.datetime (String.ofList cs))
  else if isFloat cs then some (.float (String.ofList cs))
  else (integer? cs).map .integer

end LedgerHistory.Toml
