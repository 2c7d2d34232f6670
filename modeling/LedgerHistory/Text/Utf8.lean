/-!
# Reading UTF-8

Bytes are read as text when they are valid UTF-8. Otherwise `Utf8.fault` tells where the text
breaks off: the first byte sequence that no valid text can hold, or a sequence cut short by the end.
-/

namespace LedgerHistory.Utf8

/-- Where bytes stop being UTF-8. -/
inductive Fault
  /-- The `length` bytes from `index` on begin no character. -/
  | invalid (length index : Nat)
  /-- The bytes from `index` on begin a character that the end cuts short. -/
  | incomplete (index : Nat)
  deriving DecidableEq, Repr

def Fault.message : Fault → String
  | .invalid n i => s!"invalid utf-8 sequence of {n} bytes from index {i}"
  | .incomplete i => s!"incomplete utf-8 byte sequence from index {i}"

/-- The bounds of each byte that must follow a first byte: none after an ASCII byte, and no answer
for a byte that begins no character. -/
def continuation? (first : UInt8) : Option (List (UInt8 × UInt8)) :=
  if first < 0x80 then some []
  else if 0xC2 ≤ first ∧ first ≤ 0xDF then some [(0x80, 0xBF)]
  else if first = 0xE0 then some [(0xA0, 0xBF), (0x80, 0xBF)]
  else if first = 0xED then some [(0x80, 0x9F), (0x80, 0xBF)]
  else if 0xE1 ≤ first ∧ first ≤ 0xEF then some [(0x80, 0xBF), (0x80, 0xBF)]
  else if first = 0xF0 then some [(0x90, 0xBF), (0x80, 0xBF), (0x80, 0xBF)]
  else if 0xF1 ≤ first ∧ first ≤ 0xF3 then some [(0x80, 0xBF), (0x80, 0xBF), (0x80, 0xBF)]
  else if first = 0xF4 then some [(0x80, 0x8F), (0x80, 0xBF), (0x80, 0xBF)]
  else none

/-- The fault among the bytes that must follow those read from `start`, `taken` so far. -/
def continuationFault (start : Nat) : Nat → List (UInt8 × UInt8) → List UInt8 → Option Fault
  | _, [], _ => none
  | _, _ :: _, [] => some (.incomplete start)
  | taken, (lo, hi) :: bounds, b :: rest =>
    if lo ≤ b ∧ b ≤ hi then continuationFault start (taken + 1) bounds rest
    else some (.invalid taken start)

/-- The first fault in the bytes. `skip` bytes belong to the character before. -/
def faultFrom (index skip : Nat) : List UInt8 → Option Fault
  | [] => none
  | b :: rest =>
    match skip with
    | k + 1 => faultFrom (index + 1) k rest
    | 0 =>
      match continuation? b with
      | none => some (.invalid 1 index)
      | some bounds =>
        match continuationFault index 1 bounds rest with
        | some f => some f
        | none => faultFrom (index + 1) bounds.length rest

/-- The first fault in the bytes, if they are not UTF-8. -/
def fault (bytes : List UInt8) : Option Fault := faultFrom 0 0 bytes

def encode (s : String) : List UInt8 := s.toUTF8.data.toList

/-- The text that the bytes hold. -/
def decode (bytes : List UInt8) : Except Fault String :=
  match String.fromUTF8? ⟨bytes.toArray⟩ with
  | some s => .ok s
  | none => .error ((fault bytes).getD (.incomplete bytes.length))

theorem decode_encode (s : String) : decode (encode s) = .ok s := by
  have valid : (⟨s.toUTF8.data.toList.toArray⟩ : ByteArray).IsValidUTF8 := by
    simpa using s.isValidUTF8
  have text : String.fromUTF8 ⟨s.toUTF8.data.toList.toArray⟩ valid = s := by
    simp [String.fromUTF8]
  simp only [decode, encode, String.fromUTF8?, valid, dif_pos, text]

end LedgerHistory.Utf8
