import LedgerHistory.Number.Binary64

/-!
# Shortest decimals

The decimal with the fewest digits that lies in the interval of reals rounding to a double. Of two
such decimals the nearer one is taken, and of two equally near ones the even one.
-/

namespace LedgerHistory

/-- The number `digits * 10 ^ exponent`. -/
structure Decimal where
  digits : Nat
  exponent : Int
  deriving DecidableEq, Repr

namespace Decimal

/-- Moves trailing zeros of the digits into the exponent. -/
def trim (fuel : Nat) (d : Decimal) : Decimal :=
  match fuel with
  | 0 => d
  | n + 1 =>
    if d.digits ≠ 0 ∧ d.digits % 10 = 0 then trim n ⟨d.digits / 10, d.exponent + 1⟩ else d

end Decimal

namespace Binary64

/-- A positive rational number. -/
structure Ratio where
  num : Nat
  den : Nat

/-- `n * 2 ^ e`. -/
def Ratio.ofBinary (n : Nat) (e : Int) : Ratio :=
  if 0 ≤ e then ⟨n <<< e.toNat, 1⟩ else ⟨n, 1 <<< (-e).toNat⟩

/-- The ratio divided by `10 ^ k`. -/
def Ratio.divTenPow (r : Ratio) (k : Int) : Ratio :=
  if 0 ≤ k then ⟨r.num, r.den * Nat.pow 10 k.toNat⟩
  else ⟨r.num * Nat.pow 10 (-k).toNat, r.den⟩

def Ratio.isAtLeastOne (r : Ratio) : Bool := r.den ≤ r.num

/-- The position `p` of the decimal point, with `10 ^ (p - 1) ≤ r < 10 ^ p`, given a guess that is at
most one off. -/
def Ratio.pointNear (r : Ratio) (guess : Int) : Int :=
  if (r.divTenPow guess).isAtLeastOne then guess + 1
  else if (r.divTenPow (guess - 1)).isAtLeastOne then guess
  else guess - 1

/-- The position of the decimal point of `n * 2 ^ e`. -/
def pointPosition (n : Nat) (e : Int) : Int :=
  (Ratio.ofBinary n e).pointNear (((Nat.log2 n : Int) + e) * 78913 / 0x40000 + 1)

/-- The bounds of the reals that round to a double, in quarters of a unit of its significand. The
lower bound is nearer where the next smaller double is. -/
def quarterBounds (x : Binary64) : Nat × Nat :=
  let m := x.significand
  (4 * m - (if m = hiddenBit ∧ -1074 < x.exponent then 1 else 2), 4 * m + 2)

/-- The multiple of `10 ^ k` nearest to the double among those that round to it, as its factor. -/
def nearestOnGrid? (x : Binary64) (k : Int) : Option Nat :=
  let q := x.exponent - 2
  let v := (Ratio.ofBinary (4 * x.significand) q).divTenPow k
  let lo := (Ratio.ofBinary x.quarterBounds.1 q).divTenPow k
  let hi := (Ratio.ofBinary x.quarterBounds.2 q).divTenPow k
  let closed := x.significand % 2 = 0
  let inside (c : Nat) : Bool :=
    if closed then lo.num ≤ c * lo.den && c * hi.den ≤ hi.num
    else lo.num < c * lo.den && c * hi.den < hi.num
  let below := v.num / v.den
  match inside below, inside (below + 1) with
  | true, true =>
    let twice := 2 * (v.num % v.den)
    some (if twice < v.den then below else if v.den < twice then below + 1
      else below + below % 2)
  | true, false => some below
  | false, true => some (below + 1)
  | false, false => none

/-- The first grid with a hit, from one digit on. -/
def shortestFrom (x : Binary64) (point : Int) (digits : Nat) : Nat → Decimal
  | 0 => ⟨x.significand, x.exponent⟩
  | n + 1 =>
    match x.nearestOnGrid? (point - digits) with
    | some c => ⟨c, point - digits⟩
    | none => shortestFrom x point (digits + 1) n

/-- The shortest decimal of a finite double other than zero, up to its sign. Seventeen digits always
suffice. -/
def shortest (x : Binary64) : Decimal :=
  (shortestFrom x (pointPosition x.significand x.exponent) 1 17).trim 17

end Binary64

end LedgerHistory
