import JarRank.Json.Basic
import JarRank.Text.Utf8

/-!
# Encodings of JSON texts

A JSON text comes as bytes in UTF-8, UTF-16 or UTF-32. A mark in front tells which
of them it is. Without a mark the zeros among the first four bytes do, because a
text begins with two characters of ASCII, or has one character in all. The mark
is no part of the text.

Half of a surrogate pair is let pass in each of them, as if it were a character:
the text is one of code points. In UTF-16 two halves that belong together are one
code point; in the other two they remain two.
-/
namespace JarRank.Json

/-- The order of the bytes of a number. -/
inductive ByteOrder where
  | big
  | little
  deriving DecidableEq, Repr

/-- How a text is written as bytes. -/
inductive Encoding where
  | utf8
  | utf16 (order : ByteOrder)
  | utf32 (order : ByteOrder)
  deriving DecidableEq, Repr

namespace Encoding

/-- The encoding that a mark tells, and the bytes behind the mark. -/
def ofMark? : Bytes → Option (Encoding × Bytes)
  | 0x00 :: 0x00 :: 0xFE :: 0xFF :: bs => some (.utf32 .big, bs)
  | 0xFF :: 0xFE :: 0x00 :: 0x00 :: bs => some (.utf32 .little, bs)
  | 0xFE :: 0xFF :: bs => some (.utf16 .big, bs)
  | 0xFF :: 0xFE :: bs => some (.utf16 .little, bs)
  | 0xEF :: 0xBB :: 0xBF :: bs => some (.utf8, bs)
  | _ => none

/-- The encoding that zeros tell. -/
def ofZeros : Bytes → Encoding
  | a :: b :: c :: d :: _ =>
      if a = 0 then if b = 0 then .utf32 .big else .utf16 .big
      else if b = 0 then if c = 0 ∧ d = 0 then .utf32 .little else .utf16 .little
      else .utf8
  | [a, b] => if a = 0 then .utf16 .big else if b = 0 then .utf16 .little else .utf8
  | _ => .utf8

def number : ByteOrder → Bytes → Nat
  | .big => Bytes.bigEndian
  | .little => Bytes.littleEndian

def point? (n : Nat) : Option CodePoint := if h : n < 0x110000 then some ⟨n, h⟩ else none

/-- What begins with a byte behind which the range of a character is confined, except that the
three bytes of half of a pair may follow. -/
def start (b : UInt8) : Utf8.Start :=
  if b = 0xED then .lead ⟨13, 2, 0x80, 0xBF, 1⟩ else Utf8.start b

/-- The text of UTF-8 from inside a code point, or between two if there is none. -/
def decode8? : Option Utf8.Partial → Bytes → Text → Option Text
  | none, [], acc => some acc.reverse
  | some _, [], _ => none
  | none, b :: bs, acc =>
      match start b with
      | .char c => decode8? none bs (.ofChar c :: acc)
      | .lead p => decode8? (some p) bs acc
      | .invalid => none
  | some p, b :: bs, acc =>
      if p.low ≤ b ∧ b ≤ p.high then
        let value := p.value * 64 + (b.toNat - 0x80)
        if p.needed ≤ 1 then
          match point? value with
          | some q => decode8? none bs (q :: acc)
          | none => none
        else decode8? (some ⟨value, p.needed - 1, 0x80, 0xBF, p.taken + 1⟩) bs acc
      else none

def units? (order : ByteOrder) : Bytes → Option (List Nat)
  | a :: b :: bs => do return number order [a, b] :: (← units? order bs)
  | [] => some []
  | _ => none

/-- The text of units, two of which may make a code point above U+FFFF. -/
def ofUnits? : List Nat → Option Text
  | u :: v :: us =>
      if 0xD800 ≤ u ∧ u < 0xDC00 ∧ 0xDC00 ≤ v ∧ v < 0xE000 then do
        return (← point? (0x10000 + (u - 0xD800) * 0x400 + (v - 0xDC00))) :: (← ofUnits? us)
      else do return (← point? u) :: (← ofUnits? (v :: us))
  | [u] => do return [← point? u]
  | [] => some []

/-- The text of UTF-32. -/
def decode32? (order : ByteOrder) : Bytes → Option Text
  | a :: b :: c :: d :: bs => do
      return (← point? (number order [a, b, c, d])) :: (← decode32? order bs)
  | [] => some []
  | _ => none

/-- The text that bytes in an encoding are, if they are one. -/
def decode? : Encoding → Bytes → Option Text
  | .utf8, bs => decode8? none bs []
  | .utf16 order, bs => (units? order bs).bind ofUnits?
  | .utf32 order, bs => decode32? order bs

/-- The text that bytes are, in the encoding that they tell themselves. -/
def text? (bs : Bytes) : Option Text :=
  match ofMark? bs with
  | some (e, bs) => e.decode? bs
  | none => (ofZeros bs).decode? bs

end Encoding
end JarRank.Json
