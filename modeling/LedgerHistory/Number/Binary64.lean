/-!
# Binary floating point numbers

Doubles as their 64 bits, with exact rational arithmetic in place of hardware operations: a ratio of
naturals is rounded to the nearest double, ties to the even one, and a product or quotient is the
rounded exact one.
-/

namespace LedgerHistory

/-- A double, as its bits. -/
structure Binary64 where
  bits : UInt64
  deriving DecidableEq, Repr

namespace Binary64

/-- The bit of the sign: `2 ^ 63`. -/
def signBit : Nat := 0x8000000000000000

/-- The bit in front of the fraction, which normal numbers do not store: `2 ^ 52`. -/
def hiddenBit : Nat := 0x10000000000000

/-- The bits without the sign. -/
def magnitude (x : Binary64) : Nat := x.bits.toNat % signBit

/-- Whether the sign bit is set. -/
def isNegative (x : Binary64) : Bool := signBit ≤ x.bits.toNat

/-- The magnitude of infinity. -/
def infinity : Nat := 0x7FF * hiddenBit

/-- Whether the number is neither infinite nor undefined. -/
def isFinite (x : Binary64) : Bool := x.magnitude < infinity

/-- Whether the number is a zero of either sign. -/
def isZero (x : Binary64) : Bool := x.magnitude == 0

/-- The positive zero. -/
def zero : Binary64 := ⟨0⟩

/-- The double with a sign and a magnitude. -/
def ofMagnitude (negative : Bool) (magnitude : Nat) : Binary64 :=
  ⟨UInt64.ofNat (magnitude + if negative then signBit else 0)⟩

/-- Turns the sign round. -/
def neg (x : Binary64) : Binary64 := ofMagnitude (!x.isNegative) x.magnitude

/-- A finite double is `significand * 2 ^ exponent`, up to its sign. -/
def significand (x : Binary64) : Nat :=
  if x.magnitude / hiddenBit = 0 then x.magnitude else x.magnitude % hiddenBit + hiddenBit

/-- The power of two that scales the significand. -/
def exponent (x : Binary64) : Int :=
  if x.magnitude / hiddenBit = 0 then -1074 else (x.magnitude / hiddenBit : Nat) - 1075

/-- The quotient rounded to the nearest natural, a half to the even one. -/
def roundDiv (num den : Nat) : Nat :=
  let q := num / den
  let twice := 2 * (num % den)
  if twice < den then q else if den < twice then q + 1 else q + q % 2

/-- Whether `2 ^ e ≤ num / den`. -/
def powLeRatio (e : Int) (num den : Nat) : Bool :=
  if 0 ≤ e then den <<< e.toNat ≤ num else den ≤ num <<< (-e).toNat

/-- The double nearest to `num / den`, infinite when that is out of range. -/
def ofRatio (num den : Nat) : Binary64 :=
  if num = 0 then zero
  else
    let e₀ : Int := (Nat.log2 num : Int) - Nat.log2 den
    let e := if powLeRatio e₀ num den then e₀ else e₀ - 1
    let q := max (e - 52) (-1074)
    let m := if 0 ≤ q then roundDiv num (den <<< q.toNat) else roundDiv (num <<< (-q).toNat) den
    ofMagnitude false (min infinity ((q + 1074).toNat * hiddenBit + m))

/-- The double nearest to a natural. -/
def ofNat (n : Nat) : Binary64 := ofRatio n 1

/-- The double nearest to `num / den * 2 ^ e`. -/
def ofScaledRatio (num den : Nat) (e : Int) : Binary64 :=
  if 0 ≤ e then ofRatio (num <<< e.toNat) den else ofRatio num (den <<< (-e).toNat)

/-- The rounded product of two finite positive doubles. -/
def mul (x y : Binary64) : Binary64 :=
  ofScaledRatio (x.significand * y.significand) 1 (x.exponent + y.exponent)

/-- The rounded quotient of two finite positive doubles. -/
def div (x y : Binary64) : Binary64 :=
  ofScaledRatio x.significand y.significand (x.exponent - y.exponent)

/-- The double nearest to a power of ten. -/
def tenPow (k : Nat) : Binary64 := ofNat (Nat.pow 10 k)

/-- The largest power of ten that is a finite double. -/
def maxTenPow : Nat := 308

/-- `x * 10 ^ e`, with one multiplication or division for each `maxTenPow` powers of ten. There is no
answer when the product is out of range. After three divisions nothing is left of a 64-bit number. -/
def scale? (x : Binary64) (e : Int) (divisions : Nat) : Option Binary64 :=
  if maxTenPow < e then (if x.isZero then some x else none)
  else if 0 ≤ e then
    let y := x.mul (tenPow e.toNat)
    if y.isFinite then some y else none
  else if -maxTenPow ≤ e then some (x.div (tenPow (-e).toNat))
  else if x.isZero then some x
  else
    match divisions with
    | 0 => some zero
    | n + 1 => scale? (x.div (tenPow maxTenPow)) (e + maxTenPow) n

/-- The double read for `digits * 10 ^ e`: the digits as a double, scaled. -/
def ofDecimal? (digits : Nat) (e : Int) : Option Binary64 := scale? (ofNat digits) e 3

/-- Numeric equality of numbers that are no NaN: the two zeros are equal. -/
def same (x y : Binary64) : Bool := x == y || (x.isZero && y.isZero)

end Binary64

end LedgerHistory
