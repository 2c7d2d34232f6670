import LedgerHistory.Text.Unprintable

/-!
# Quoted text

Text and single characters as messages show them: between delimiters, with the delimiter, the
backslash and unprintable characters escaped.
-/

namespace LedgerHistory.Text

/-- A code point in lower-case hexadecimal, without leading zeros. -/
def hexNumber (n : Nat) : String := String.ofList (Nat.toDigits 16 n)

/-- One character inside quotes. The delimiter and the backslash stand behind a backslash, NUL, tab
and line ends have a letter, and what is unprintable shows its number. -/
def escaped (delimiter c : Char) : String :=
  if c = '\x00' then "\\0"
  else if c = '\t' then "\\t"
  else if c = '\r' then "\\r"
  else if c = '\n' then "\\n"
  else if c = delimiter || c = '\\' then String.ofList ['\\', c]
  else if isUnprintable c then "\\u\x7b" ++ hexNumber c.toNat ++ "\x7d"
  else c.toString

/-- Text between double quotes. -/
def quoted (s : String) : String :=
  "\"" ++ String.join (s.toList.map (escaped '"')) ++ "\""

/-- A character between single quotes. -/
def quotedChar (c : Char) : String := "'" ++ escaped '\'' c ++ "'"

end LedgerHistory.Text
