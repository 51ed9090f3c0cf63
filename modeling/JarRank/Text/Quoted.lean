import JarRank.Bytes.Hex
import JarRank.Text.Printable

/-!
# Quoted literals

How a text or a byte sequence is shown inside a message: between quotes, with
backslash escapes. The quote is the single one, unless the content has a single
quote and no double quote. A tab, line feed, carriage return, backslash and the
quote itself have short escapes; what cannot be printed is written in
hexadecimal, with two, four or eight digits as its code point needs. A byte
literal has a leading `b`, and all its bytes outside ASCII are in hexadecimal.
-/
namespace JarRank.Quoted

/-- The quote that surrounds some characters. -/
def quoteOf (cs : List Char) : Char :=
  if '\'' ∈ cs ∧ '"' ∉ cs then '"' else '\''

/-- The short escapes, which texts and bytes share. -/
def short? (quote c : Char) : Option (List Char) :=
  if c = quote ∨ c = '\\' then some ['\\', c]
  else if c = '\t' then some ['\\', 't']
  else if c = '\n' then some ['\\', 'n']
  else if c = '\r' then some ['\\', 'r']
  else none

/-- A code point in hexadecimal, as short as it can be. -/
def numeric (n : Nat) : List Char :=
  if n < 0x100 then '\\' :: 'x' :: (Hex.lower 2 n).toList
  else if n < 0x10000 then '\\' :: 'u' :: (Hex.lower 4 n).toList
  else '\\' :: 'U' :: (Hex.lower 8 n).toList

/-- One character of a text literal. -/
def char (quote c : Char) : List Char :=
  match short? quote c with
  | some cs => cs
  | none => if Printable.isPrintable c then [c] else numeric c.toNat

def text (s : String) : String :=
  let quote := quoteOf s.toList
  String.ofList (quote :: s.toList.flatMap (char quote) ++ [quote])

/-- One byte of a byte literal. -/
def byte (quote : Char) (b : UInt8) : List Char :=
  match short? quote (Char.ofNat b.toNat) with
  | some cs => cs
  | none => if 32 ≤ b ∧ b < 127 then [Char.ofNat b.toNat] else numeric b.toNat

def bytes (bs : Bytes) : String :=
  let quote := quoteOf (bs.map fun b => Char.ofNat b.toNat)
  String.ofList ('b' :: quote :: bs.flatMap (byte quote) ++ [quote])

end JarRank.Quoted
