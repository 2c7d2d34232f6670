/-!
# Words as bytes

Unsigned words in big-endian order. Main statement: `ofBigEndian_bigEndian`.
-/

namespace LedgerHistory.Bytes

/-- The lowest `width` bytes of a number, highest first. -/
def bigEndian : Nat → Nat → List UInt8
  | 0, _ => []
  | width + 1, n => UInt8.ofNat (n / Nat.pow 256 width) :: bigEndian width n

/-- The number whose bytes are given, highest first. -/
def ofBigEndian (bytes : List UInt8) : Nat := bytes.foldl (fun n b => n * 256 + b.toNat) 0

@[simp] theorem length_bigEndian (width n : Nat) : (bigEndian width n).length = width := by
  induction width with
  | zero => rfl
  | succ w ih => simp [bigEndian, ih]

theorem foldl_bigEndian (width n m : Nat) :
    (bigEndian width n).foldl (fun n b => n * 256 + b.toNat) m =
      m * Nat.pow 256 width + n % Nat.pow 256 width := by
  induction width generalizing m with
  | zero =>
    show m = m * 1 + n % 1
    rw [Nat.mul_one, Nat.mod_one, Nat.add_zero]
  | succ w ih =>
    rw [bigEndian, List.foldl_cons, ih]
    show _ = m * (Nat.pow 256 w * 256) + n % (Nat.pow 256 w * 256)
    generalize Nat.pow 256 w = p
    have byte : (UInt8.ofNat (n / p)).toNat = n / p % 256 := UInt8.toNat_ofNat'
    have split : n % (p * 256) = n % p + p * (n / p % 256) := Nat.mod_mul
    rw [byte, split, Nat.add_mul, Nat.mul_assoc, Nat.mul_comm 256, Nat.mul_comm (n / p % 256)]
    omega

theorem ofBigEndian_bigEndian (width n : Nat) :
    ofBigEndian (bigEndian width n) = n % Nat.pow 256 width := by
  simp [ofBigEndian, foldl_bigEndian]

/-- Eight bytes of a 64-bit integer. -/
def ofInt64 (x : Int64) : List UInt8 := bigEndian 8 x.toUInt64.toNat

/-- Four bytes of a 32-bit integer. -/
def ofInt32 (x : Int32) : List UInt8 := bigEndian 4 x.toUInt32.toNat

/-- Two bytes of a 16-bit integer. -/
def ofInt16 (x : Int16) : List UInt8 := bigEndian 2 x.toUInt16.toNat

/-- The 64-bit integer of eight bytes. -/
def toInt64 (bytes : List UInt8) : Int64 := (UInt64.ofNat (ofBigEndian bytes)).toInt64

/-- The 32-bit integer of four bytes. -/
def toInt32 (bytes : List UInt8) : Int32 := (UInt32.ofNat (ofBigEndian bytes)).toInt32

/-- The 16-bit integer of two bytes. -/
def toInt16 (bytes : List UInt8) : Int16 := (UInt16.ofNat (ofBigEndian bytes)).toInt16

end LedgerHistory.Bytes
