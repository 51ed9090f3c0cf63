/-!
# Binary64 values

A finite value is a sign, a significand below 2^53 and an exponent, exact in
integer arithmetic. A quotient of natural numbers is rounded to the nearest
value, a tie to the even significand; values too large become infinite. Decimal
numerals go through the same rounding, so reading one is exact by construction, and so
do differences and products.
-/
namespace JarRank

/-- The value `significand * 2 ^ exponent` with a sign, or no finite value. -/
inductive Binary64 where
  | finite (negative : Bool) (significand : Nat) (exponent : Int)
  | infinite (negative : Bool)
  | nan
  deriving DecidableEq, Repr

namespace Binary64

/-- The least significand of 53 bits. Smaller ones go with the least exponent alone. -/
def leastNormal : Nat := 0x10000000000000

/-- The exponent of the smallest values. -/
def leastExponent : Int := -1074

/-- The exponent of the largest finite values. -/
def greatestExponent : Int := 971

def zero : Binary64 := finite false 0 leastExponent

/-- The quotient to the nearest integer, a half to the even one. -/
def divideToEven (num den : Nat) : Nat :=
  let q := num / den
  let r := num % den
  if 2 * r < den then q
  else if den < 2 * r then q + 1
  else q + q % 2

/-- The quotient `num / den * 2 ^ (-e)`, as a numerator and a denominator. -/
def scaled (num den : Nat) (e : Int) : Nat × Nat :=
  if 0 ≤ e then (num, den <<< e.toNat) else (num <<< (-e).toNat, den)

/-- The greatest power of two that does not exceed a positive quotient. -/
def floorLog2 (num den : Nat) : Int :=
  let e : Int := (num.log2 : Int) - den.log2
  let (n, d) := scaled num den e
  if d ≤ n then e else e - 1

/-- The value nearest to a quotient. -/
def ofRatio (negative : Bool) (num den : Nat) : Binary64 :=
  if num = 0 then finite negative 0 leastExponent
  else
    let e := max (floorLog2 num den - 52) leastExponent
    let (n, d) := scaled num den e
    let m := divideToEven n d
    let (m, e) := if m = 2 * leastNormal then (leastNormal, e + 1) else (m, e)
    if greatestExponent < e then infinite negative else finite negative m e

def thousand : Binary64 := ofRatio false 1000 1

/-- How many decimal digits a number has; none for zero. -/
def digitCount (n : Nat) : Nat := if n = 0 then 0 else (Nat.toDigits 10 n).length

def powerOfTen (n : Nat) : Nat := Nat.pow 10 n

/-- The value nearest to `digits * 10 ^ power`. Magnitudes that are beyond all
values on either side are settled before the power is computed. -/
def ofDecimal (negative : Bool) (digits : Nat) (power : Int) : Binary64 :=
  let size : Int := digitCount digits + power
  if digits = 0 ∨ size < -330 then finite negative 0 leastExponent
  else if 310 < size then infinite negative
  else if 0 ≤ power then ofRatio negative (digits * powerOfTen power.toNat) 1
  else ofRatio negative digits (powerOfTen (-power).toNat)

/-- The value nearest to `m * 2 ^ e`. -/
def ofScaled (negative : Bool) (m : Nat) (e : Int) : Binary64 :=
  if 0 ≤ e then ofRatio negative (m <<< e.toNat) 1 else ofRatio negative m (1 <<< (-e).toNat)

/-- The difference, rounded. One of equal values is a positive zero, unless a positive zero is
taken from a negative one. -/
def sub : Binary64 → Binary64 → Binary64
  | finite n m e, finite n' m' e' =>
      let least := min e e'
      let signed (negative : Bool) (m : Nat) (e : Int) : Int :=
        let shifted : Int := m <<< (e - least).toNat
        if negative then -shifted else shifted
      let difference := signed n m e - signed n' m' e'
      if difference = 0 then finite (n && !n' && m == 0) 0 leastExponent
      else ofScaled (difference < 0) difference.natAbs least
  | infinite n, infinite n' => if n = n' then nan else infinite n
  | infinite n, finite _ _ _ => infinite n
  | finite _ _ _, infinite n => infinite !n
  | nan, _ | _, nan => nan

/-- The product, rounded. -/
def mul : Binary64 → Binary64 → Binary64
  | finite n m e, finite n' m' e' => ofScaled (n != n') (m * m') (e + e')
  | infinite n, infinite n' => infinite (n != n')
  | infinite n, finite n' m _ | finite n' m _, infinite n => if m = 0 then nan else infinite (n != n')
  | nan, _ | _, nan => nan

def isFinite : Binary64 → Bool
  | finite _ _ _ => true
  | _ => false

/-- The integer that a value is, if it is one. -/
def toInt? : Binary64 → Option Int
  | finite negative m e =>
      let signed (n : Nat) : Int := if negative then -n else n
      if 0 ≤ e then some (signed (m <<< e.toNat))
      else
        let d := 1 <<< (-e).toNat
        if m % d = 0 then some (signed (m / d)) else none
  | _ => none

end Binary64
end JarRank
