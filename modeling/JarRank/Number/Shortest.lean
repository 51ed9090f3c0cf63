import JarRank.Number.Binary64

/-!
# Decimal text of binary64 values

The digits of a value are the fewest that read back as it, and of those the
nearest to it, or the even one of two as near. A decimal reads back if it lies
between the midpoints to the two neighbouring values, the midpoints included
when the significand is even. For each number of digits only the two decimals
around the value are candidates.

Values from `0.0001` to below `10^16` are written positionally and always with a
fraction; all others with an exponent of at least two digits.
-/
namespace JarRank.Binary64

/-- The decimal `digits * 10 ^ power`. -/
structure Decimal where
  digits : Nat
  power : Int
  deriving DecidableEq, Repr

/-- The decimal without zeros at its end. -/
def Decimal.stripZeros (d : Decimal) : Decimal := go d.digits d
where
  go : (fuel : Nat) → Decimal → Decimal
    | 0, d => d
    | fuel + 1, d =>
        if d.digits ≠ 0 ∧ d.digits % 10 = 0 then go fuel ⟨d.digits / 10, d.power + 1⟩ else d

/-- How many places the first digit of a positive quotient stands before the
point; zero and less if it stands behind it. -/
def leadingPlace (num den : Nat) : Int :=
  if den ≤ num then digitCount (num / den)
  else behind 400 num 0
where
  behind : (fuel : Nat) → Nat → Nat → Int
    | 0, _, zeros => -zeros
    | fuel + 1, n, zeros => if den ≤ 10 * n then -zeros else behind fuel (10 * n) (zeros + 1)

/-- The decimals that read back as `m * 2 ^ e`, as bounds in quarters of `2 ^ e`. -/
structure Interval where
  low : Nat
  high : Nat
  closed : Bool

/-- The interval of a value: nearer below a power of two, where the values are denser. -/
def Interval.around (m : Nat) (e : Int) : Interval :=
  ⟨if m = leastNormal ∧ e ≠ leastExponent then 4 * m - 1 else 4 * m - 2, 4 * m + 2, m % 2 == 0⟩

/-- Whether `x / y` quarters lie inside. -/
def Interval.contains (i : Interval) (x y : Nat) : Bool :=
  if i.closed then i.low * y ≤ x && x ≤ i.high * y else i.low * y < x && x < i.high * y

/-- The decimal with few digits that reads back as `m * 2 ^ e`, at `count` digits or more. -/
def shortestFrom (m : Nat) (e : Int) (place : Int) : (fuel count : Nat) → Decimal
  | 0, _ => ⟨m, 0⟩
  | fuel + 1, count =>
      let power := place - count
      -- the grid of `10 ^ power`, and the value on it, over one denominator
      let (gridNum, gridDen) :=
        if 0 ≤ power then (powerOfTen power.toNat, 1) else (1, powerOfTen (-power).toNat)
      let (num, den) := scaled (m * gridDen) gridNum (-e)
      let below := num / den
      -- a decimal in quarters of `2 ^ e`
      let (quarterNum, quarterDen) := scaled (4 * gridNum) gridDen e
      let interval := Interval.around m e
      let fits (d : Nat) := interval.contains (d * quarterNum) quarterDen
      let nearer := divideToEven num den
      if fits nearer then ⟨nearer, power⟩
      else if fits below then ⟨below, power⟩
      else if fits (below + 1) then ⟨below + 1, power⟩
      else shortestFrom m e place fuel (count + 1)

/-- The fewest digits that read back as `m * 2 ^ e`, for a positive `m`. -/
def shortest (m : Nat) (e : Int) : Decimal :=
  let (num, den) := scaled m 1 (-e)
  (shortestFrom m e (leadingPlace num den) 17 1).stripZeros

def sign (negative : Bool) : String := if negative then "-" else ""

def zeros (n : Nat) : String := String.ofList (List.replicate n '0')

/-- A positive decimal in positional or exponential form. -/
def Decimal.text (d : Decimal) : String :=
  let digits := toString d.digits
  let place : Int := digits.length + d.power
  if -4 < place ∧ place ≤ 16 then
    if place ≤ 0 then "0." ++ zeros (-place).toNat ++ digits
    else if place.toNat < digits.length then
      String.ofList (digits.toList.take place.toNat) ++ "." ++
        String.ofList (digits.toList.drop place.toNat)
    else digits ++ zeros (place.toNat - digits.length) ++ ".0"
  else
    let exponent := place - 1
    let size := toString exponent.natAbs
    let fraction := String.ofList (digits.toList.drop 1)
    String.ofList (digits.toList.take 1) ++ (if fraction.isEmpty then "" else "." ++ fraction) ++
      (if exponent < 0 then "e-" else "e+") ++ zeros (2 - size.length) ++ size

def text : Binary64 → String
  | finite negative m e =>
      sign negative ++ (if m = 0 then "0.0" else (shortest m e).text)
  | infinite negative => sign negative ++ "Infinity"
  | nan => "NaN"

/-- The value rounded to one place behind the point. -/
def oneDecimal : Binary64 → String
  | finite negative m e =>
      let (num, den) := scaled (m * 10) 1 (-e)
      let tenths := divideToEven num den
      sign negative ++ toString (tenths / 10) ++ "." ++ toString (tenths % 10)
  | infinite negative => sign negative ++ "inf"
  | nan => "nan"

end JarRank.Binary64
