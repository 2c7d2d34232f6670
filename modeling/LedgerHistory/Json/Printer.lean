import LedgerHistory.Json.Basic
import LedgerHistory.Number.Shortest
import LedgerHistory.Text.Quoted

/-!
# Writing JSON

A value is written without blanks, or indented by two blanks a level. Doubles have the fewest digits
that read back, and always a point or an exponent.
-/

namespace LedgerHistory

/-- Which positions of the decimal point are written without an exponent: those above `low`, up to
`high`. -/
structure Positional where
  low : Int
  high : Int

/-- JSON texts write doubles from 0.00001 up to below 10 ^ 16 without an exponent. -/
def Json.positional : Positional := ⟨-5, 16⟩

def decimalDigits (n : Nat) : List Char := Nat.toDigits 10 n

def decimalInt (n : Int) : List Char :=
  if n < 0 then '-' :: decimalDigits n.natAbs else decimalDigits n.natAbs

namespace Decimal

/-- The number in positional notation, given its point position, with a digit on both sides. -/
def positionalChars (digits : List Char) (point : Int) : List Char :=
  if point ≤ 0 then '0' :: '.' :: List.replicate (-point).toNat '0' ++ digits
  else if digits.length ≤ point.toNat then
    digits ++ List.replicate (point.toNat - digits.length) '0' ++ ['.', '0']
  else digits.take point.toNat ++ '.' :: digits.drop point.toNat

/-- The number with one digit before the point, and a signed exponent. -/
def scientificChars (digits : List Char) (point : Int) : List Char :=
  let e := point - 1
  digits.take 1 ++ (if digits.length ≤ 1 then [] else '.' :: digits.drop 1)
    ++ 'e' :: (if e < 0 then '-' else '+') :: decimalDigits e.natAbs

/-- The number in the notation that its point position calls for. -/
def chars (style : Positional) (d : Decimal) : List Char :=
  let digits := decimalDigits d.digits
  let point := d.exponent + digits.length
  if style.low < point ∧ point ≤ style.high then positionalChars digits point
  else scientificChars digits point

end Decimal

/-- The text of a finite double. -/
def Binary64.chars (style : Positional) (x : Binary64) : List Char :=
  (if x.isNegative then ['-'] else [])
    ++ (if x.isZero then ['0', '.', '0'] else x.shortest.chars style)

def Number.chars : Number → List Char
  | .int n _ => decimalInt n
  | .float x => x.chars Json.positional

namespace Json

/-- A digit of a `\u` escape. -/
def hexDigit (n : Nat) : Char := Nat.digitChar n

/-- One character of a string. Quotes and backslashes stand behind a backslash, control characters
below the blank have a letter or a number, and all else stands as it is. -/
def escape (c : Char) : List Char :=
  if c = '"' then ['\\', '"']
  else if c = '\\' then ['\\', '\\']
  else if c = '\x08' then ['\\', 'b']
  else if c = '\t' then ['\\', 't']
  else if c = '\n' then ['\\', 'n']
  else if c = '\x0c' then ['\\', 'f']
  else if c = '\r' then ['\\', 'r']
  else if c.toNat < 0x20 then
    ['\\', 'u', '0', '0', hexDigit (c.toNat / 16), hexDigit (c.toNat % 16)]
  else [c]

/-- A string between quotes. -/
def stringChars (s : String) : List Char := '"' :: s.toList.flatMap escape ++ ['"']

/-- The three words. -/
def wordChars : Option Bool → List Char
  | none => ['n', 'u', 'l', 'l']
  | some true => ['t', 'r', 'u', 'e']
  | some false => ['f', 'a', 'l', 's', 'e']

mutual

/-- A value without blanks. -/
def chars : Json → List Char
  | .null => wordChars none
  | .bool b => wordChars (some b)
  | .number n => n.chars
  | .string s => stringChars s
  | .array items => '[' :: itemsChars items
  | .object fields => '{' :: fieldsChars fields

/-- What follows an opening bracket. -/
def itemsChars : List Json → List Char
  | [] => [']']
  | j :: rest => chars j ++ moreItemsChars rest

/-- What follows an item. -/
def moreItemsChars : List Json → List Char
  | [] => [']']
  | j :: rest => ',' :: chars j ++ moreItemsChars rest

/-- What follows an opening brace. -/
def fieldsChars : List (String × Json) → List Char
  | [] => ['}']
  | (k, j) :: rest => stringChars k ++ ':' :: chars j ++ moreFieldsChars rest

/-- What follows a field. -/
def moreFieldsChars : List (String × Json) → List Char
  | [] => ['}']
  | (k, j) :: rest => ',' :: stringChars k ++ ':' :: chars j ++ moreFieldsChars rest

end

/-- A value without blanks, as text. -/
def compact (j : Json) : String := String.ofList j.chars

/-- A line end and the indentation of a level. -/
def newline (level : Nat) : List Char := '\n' :: List.replicate (2 * level) ' '

mutual

/-- A value at a level of indentation. Empty arrays and objects take no line of their own. -/
def indentedChars (level : Nat) : Json → List Char
  | .array [] => ['[', ']']
  | .array (j :: rest) =>
    '[' :: newline (level + 1) ++ indentedChars (level + 1) j
      ++ indentedItems (level + 1) rest ++ newline level ++ [']']
  | .object [] => ['{', '}']
  | .object ((k, j) :: rest) =>
    '{' :: newline (level + 1) ++ stringChars k ++ ':' :: ' ' :: indentedChars (level + 1) j
      ++ indentedFields (level + 1) rest ++ newline level ++ ['}']
  | .null => wordChars none
  | .bool b => wordChars (some b)
  | .number n => n.chars
  | .string s => stringChars s

/-- The items after the first. -/
def indentedItems (level : Nat) : List Json → List Char
  | [] => []
  | j :: rest => ',' :: newline level ++ indentedChars level j ++ indentedItems level rest

/-- The fields after the first. -/
def indentedFields (level : Nat) : List (String × Json) → List Char
  | [] => []
  | (k, j) :: rest =>
    ',' :: newline level ++ stringChars k ++ ':' :: ' ' :: indentedChars level j
      ++ indentedFields level rest

end

/-- A value with each item and field on a line of its own. -/
def indented (j : Json) : String := String.ofList (j.indentedChars 0)

end Json

end LedgerHistory
