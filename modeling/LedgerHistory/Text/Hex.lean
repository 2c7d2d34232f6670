import LedgerHistory.Text.Quoted

/-!
# Bytes in hexadecimal

Bytes are written as two lower-case digits each. The reader takes digits of both cases and names the
first character that is none. Main statement: `decode_encode`.
-/

namespace LedgerHistory.Hex

/-- Why a text is not an even run of hexadecimal digits. -/
inductive Fault
  | oddLength
  | badDigit (byte : UInt8) (index : Nat)
  deriving DecidableEq, Repr

/-- The wording of a fault. A byte that is no digit is shown as the character of that number. -/
def Fault.message : Fault → String
  | .oddLength => "Odd number of digits"
  | .badDigit b i => s!"Invalid character {Text.quotedChar (Char.ofNat b.toNat)} at position {i}"

/-- The digit of a number below sixteen. -/
def digit (n : UInt8) : UInt8 := if n < 10 then 48 + n else 87 + n

def digitValue? (b : UInt8) : Option UInt8 :=
  if 48 ≤ b ∧ b ≤ 57 then some (b - 48)
  else if 97 ≤ b ∧ b ≤ 102 then some (b - 87)
  else if 65 ≤ b ∧ b ≤ 70 then some (b - 55)
  else none

/-- The digits of a byte string, as bytes. -/
def encodeBytes : List UInt8 → List UInt8
  | [] => []
  | b :: rest => digit (b / 16) :: digit (b % 16) :: encodeBytes rest

/-- The digits of a byte string. -/
def encode (bytes : List UInt8) : String :=
  String.ofList ((encodeBytes bytes).map fun b => Char.ofNat b.toNat)

/-- Reads pairs of digits, the first of which stands at `index`. -/
def decodePairs (index : Nat) : List UInt8 → Except Fault (List UInt8)
  | [] => .ok []
  | [_] => .error .oddLength
  | hi :: lo :: rest =>
    match digitValue? hi, digitValue? lo with
    | none, _ => .error (.badDigit hi index)
    | some _, none => .error (.badDigit lo (index + 1))
    | some h, some l => (decodePairs (index + 2) rest).map ((h * 16 + l) :: ·)

/-- Reads a run of digits given as bytes. An odd length is reported before any bad digit. -/
def decodeBytes (digits : List UInt8) : Except Fault (List UInt8) :=
  if digits.length % 2 = 1 then .error .oddLength else decodePairs 0 digits

/-- Reads a run of digits. -/
def decode (s : String) : Except Fault (List UInt8) := decodeBytes s.toUTF8.data.toList

/-- A statement about every byte, checked byte by byte. -/
theorem forall_byte {P : UInt8 → Prop} (h : ∀ n : Fin 256, P (UInt8.ofNat n)) (b : UInt8) : P b := by
  have := h ⟨b.toNat, b.toNat_lt⟩
  simpa using this

theorem digitValue?_digit_div (b : UInt8) : digitValue? (digit (b / 16)) = some (b / 16) :=
  forall_byte (P := fun b => digitValue? (digit (b / 16)) = some (b / 16)) (by decide +kernel) b

theorem digitValue?_digit_mod (b : UInt8) : digitValue? (digit (b % 16)) = some (b % 16) :=
  forall_byte (P := fun b => digitValue? (digit (b % 16)) = some (b % 16)) (by decide +kernel) b

theorem div_mul_add_mod (b : UInt8) : b / 16 * 16 + b % 16 = b :=
  forall_byte (P := fun b => b / 16 * 16 + b % 16 = b) (by decide +kernel) b

theorem length_encodeBytes (bytes : List UInt8) :
    (encodeBytes bytes).length = 2 * bytes.length := by
  induction bytes with
  | nil => rfl
  | cons b rest ih => simp [encodeBytes, ih]; omega

theorem decodePairs_encodeBytes (bytes : List UInt8) (index : Nat) :
    decodePairs index (encodeBytes bytes) = .ok bytes := by
  induction bytes generalizing index with
  | nil => rfl
  | cons b rest ih =>
    simp [encodeBytes, decodePairs, digitValue?_digit_div, digitValue?_digit_mod,
      div_mul_add_mod, ih, Except.map]

theorem decodeBytes_encodeBytes (bytes : List UInt8) :
    decodeBytes (encodeBytes bytes) = .ok bytes := by
  have : (encodeBytes bytes).length % 2 ≠ 1 := by rw [length_encodeBytes]; omega
  simp [decodeBytes, this, decodePairs_encodeBytes]

end LedgerHistory.Hex
