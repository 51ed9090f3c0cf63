import JarRank.Bytes.Number

/-!
# Hexadecimal text

Digits of a number in base sixteen, padded to a width, in either case of
letters; and a byte sequence as two digits a byte, in both directions.
-/
namespace JarRank.Hex

/-- One hexadecimal digit; the letters are those of `ten`, which is `a` or `A`. -/
def digit (ten : Char) (n : Nat) : Char :=
  if n < 10 then Char.ofNat (48 + n) else Char.ofNat (ten.toNat + (n - 10))

/-- The digits of `n` in base sixteen, none for zero. -/
def digitsFrom (ten : Char) : (fuel : Nat) → Nat → List Char → List Char
  | 0, _, tail => tail
  | fuel + 1, n, tail =>
      if n = 0 then tail else digitsFrom ten fuel (n / 16) (digit ten (n % 16) :: tail)

/-- `n` in base sixteen with at least `width` digits. -/
def padded (ten : Char) (width : Nat) (n : Nat) : String :=
  let digits := digitsFrom ten n n []
  String.ofList (List.replicate (width - digits.length) '0' ++ digits)

/-- Lower-case digits, at least `width` of them. -/
def lower (width : Nat) (n : Nat) : String := padded 'a' width n

/-- Upper-case digits, at least `width` of them. -/
def upper (width : Nat) (n : Nat) : String := padded 'A' width n

/-- Two lower-case digits for every byte. -/
def ofBytes (bs : Bytes) : String :=
  String.ofList (bs.foldr (fun b tail => digit 'a' (b.toNat / 16) :: digit 'a' (b.toNat % 16) :: tail) [])

/-- The value of a hexadecimal digit of either case. -/
def value? (c : Char) : Option Nat :=
  if '0' ≤ c ∧ c ≤ '9' then some (c.toNat - 48)
  else if 'a' ≤ c ∧ c ≤ 'f' then some (c.toNat - 87)
  else if 'A' ≤ c ∧ c ≤ 'F' then some (c.toNat - 55)
  else none

/-- Reads two digits a byte, and refuses anything else. -/
def toBytes? (s : String) : Option Bytes := go s.toList []
where
  go : List Char → Bytes → Option Bytes
    | [], acc => some acc.reverse
    | [_], _ => none
    | hi :: lo :: rest, acc =>
        match value? hi, value? lo with
        | some h, some l => go rest (UInt8.ofNat (h * 16 + l) :: acc)
        | _, _ => none

end JarRank.Hex
