/-!
# Digits

Digits up to the base of sixteen, in either case, and the numbers that runs of them stand for.
-/

namespace LedgerHistory.Text

/-- The number of a hexadecimal digit. -/
def hexValue? (c : Char) : Option Nat :=
  if '0' ≤ c ∧ c ≤ '9' then some (c.toNat - 48)
  else if 'a' ≤ c ∧ c ≤ 'f' then some (c.toNat - 87)
  else if 'A' ≤ c ∧ c ≤ 'F' then some (c.toNat - 55)
  else none

/-- Whether a character is a digit of a base of at most sixteen. -/
def isDigitOf (base : Nat) (c : Char) : Bool := (hexValue? c).any (· < base)

def isDigit (c : Char) : Bool := '0' ≤ c && c ≤ '9'

/-- The number of a run of digits. -/
def numeral (base : Nat) (ds : List Char) : Nat :=
  ds.foldl (fun n c => n * base + (hexValue? c).getD 0) 0

end LedgerHistory.Text
