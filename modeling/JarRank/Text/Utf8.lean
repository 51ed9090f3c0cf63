import JarRank.Bytes.Hex

/-!
# UTF-8

One scanner, a state machine over single bytes, serves both readings of a byte
sequence. The strict reading stops at the first flaw and says where it is and
why. The lossy reading puts one U+FFFD in the place of every maximal ill-formed
part and never fails.

A character is written in its shortest form, so the byte after `E0`, `ED`, `F0`
and `F4` is confined to a part of the continuation range; this excludes overlong
forms, surrogates and numbers above U+10FFFF.
-/
namespace JarRank.Utf8

/-- A character begun and not finished. -/
structure Partial where
  /-- The bits read so far. -/
  value : Nat
  /-- How many more bytes belong to it. -/
  needed : Nat
  /-- The range of the next byte. -/
  low : UInt8
  high : UInt8
  /-- How many bytes have been read. -/
  taken : Nat
  deriving DecidableEq, Repr

/-- What a byte means where a character may begin. -/
inductive Start where
  | char (c : Char)
  | lead (p : Partial)
  | invalid
  deriving DecidableEq, Repr

/-- Reads the first byte of a character. -/
def start (b : UInt8) : Start :=
  if b < 0x80 then .char (Char.ofNat b.toNat)
  else if b < 0xC2 then .invalid
  else if b < 0xE0 then .lead ⟨b.toNat - 0xC0, 1, 0x80, 0xBF, 1⟩
  else if b = 0xE0 then .lead ⟨0, 2, 0xA0, 0xBF, 1⟩
  else if b = 0xED then .lead ⟨13, 2, 0x80, 0x9F, 1⟩
  else if b < 0xF0 then .lead ⟨b.toNat - 0xE0, 2, 0x80, 0xBF, 1⟩
  else if b = 0xF0 then .lead ⟨0, 3, 0x90, 0xBF, 1⟩
  else if b < 0xF4 then .lead ⟨b.toNat - 0xF0, 3, 0x80, 0xBF, 1⟩
  else if b = 0xF4 then .lead ⟨4, 3, 0x80, 0x8F, 1⟩
  else .invalid

/-- What a byte means inside a character. -/
inductive Next where
  | char (c : Char)
  | more (p : Partial)
  | refused
  deriving DecidableEq, Repr

/-- Reads one more byte of a character. -/
def Partial.next (p : Partial) (b : UInt8) : Next :=
  if p.low ≤ b ∧ b ≤ p.high then
    let value := p.value * 64 + (b.toNat - 0x80)
    if p.needed ≤ 1 then .char (Char.ofNat value)
    else .more ⟨value, p.needed - 1, 0x80, 0xBF, p.taken + 1⟩
  else .refused

/-- Stands for an ill-formed part in a lossy reading. -/
def replacement : Char := '\uFFFD'

/-- Where a lossy reading is behind a byte with which a character may begin: inside a character, or
between two if there is none, with the characters before, the last one first. -/
def lossyStart (b : UInt8) (acc : List Char) : Option Partial × List Char :=
  match start b with
  | .char c => (none, c :: acc)
  | .lead p => (some p, acc)
  | .invalid => (none, replacement :: acc)

/-- Where it is behind a byte, from inside a character or between two. A byte that is refused inside
a character may begin the next one. -/
def lossyStep (b : UInt8) (acc : List Char) : Option Partial → Option Partial × List Char
  | none => lossyStart b acc
  | some p =>
      match p.next b with
      | .char c => (none, c :: acc)
      | .more p => (some p, acc)
      | .refused => lossyStart b (replacement :: acc)

/-- The lossy reading from inside a character, or between two if there is none. -/
def lossyFrom : Option Partial → Bytes → List Char → List Char
  | none, [], acc => acc.reverse
  | some _, [], acc => (replacement :: acc).reverse
  | p, b :: bs, acc => lossyFrom (lossyStep b acc p).1 bs (lossyStep b acc p).2

/-- The text of a byte sequence, with U+FFFD for every maximal ill-formed part. -/
def decodeLossy (bs : Bytes) : String := String.ofList (lossyFrom none bs [])

inductive Reason where
  | invalidStart
  | invalidContinuation
  | unexpectedEnd
  deriving DecidableEq, Repr

/-- The first ill-formed part of a byte sequence. -/
structure Flaw where
  reason : Reason
  position : Nat
  /-- How many bytes it has, at least one. -/
  length : Nat
  byte : UInt8
  deriving DecidableEq, Repr

def Reason.message : Reason → String
  | .invalidStart => "invalid start byte"
  | .invalidContinuation => "invalid continuation byte"
  | .unexpectedEnd => "unexpected end of data"

/-- Names a single byte by its value and several by their positions. -/
def Flaw.message (f : Flaw) : String :=
  let place :=
    if f.length = 1 then
      "byte 0x" ++ Hex.lower 2 f.byte.toNat ++ " in position " ++ toString f.position
    else
      "bytes in position " ++ toString f.position ++ "-" ++ toString (f.position + f.length - 1)
  "'utf-8' codec can't decode " ++ place ++ ": " ++ f.reason.message

/-- The strict reading, with the character begun and its first byte, at byte `i`. -/
def strictFrom : Option (Partial × UInt8) → (i : Nat) → Bytes → List Char → Except Flaw (List Char)
  | none, _, [], acc => .ok acc.reverse
  | some (p, first), i, [], _ => .error ⟨.unexpectedEnd, i - p.taken, p.taken, first⟩
  | none, i, b :: bs, acc =>
      match start b with
      | .char c => strictFrom none (i + 1) bs (c :: acc)
      | .lead p => strictFrom (some (p, b)) (i + 1) bs acc
      | .invalid => .error ⟨.invalidStart, i, 1, b⟩
  | some (p, first), i, b :: bs, acc =>
      match p.next b with
      | .char c => strictFrom none (i + 1) bs (c :: acc)
      | .more p => strictFrom (some (p, first)) (i + 1) bs acc
      | .refused => .error ⟨.invalidContinuation, i - p.taken, p.taken, first⟩

/-- The text of a byte sequence that is UTF-8 throughout. -/
def decode (bs : Bytes) : Except Flaw String := (strictFrom none 0 bs []).map String.ofList

def encode (s : String) : Bytes := s.toUTF8.toList

end JarRank.Utf8
