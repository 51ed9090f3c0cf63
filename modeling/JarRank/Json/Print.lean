import JarRank.Bytes.Hex
import JarRank.Json.Basic

/-!
# Writing JSON

One printer for two uses. A report is written over several lines, indented by
two blanks a level, in ASCII: every other character is an escape with lower-case
digits, above U+FFFF a pair of them. A response is written on one line with its
characters as they are, surrogates included, so it is a list of code points.
What the uses differ in is a `Style`; the printer is generic in it.

The printer spells every integer. Whether a value has an integer with more digits
than may be written is asked first.

Output is built backwards onto what has been written, so that long arrays cost
no depth.
-/
namespace JarRank.Json

/-- How values are laid out in symbols of a type. -/
structure Style (α : Type) where
  /-- The symbol of a structural character. -/
  symbol : Char → α
  /-- The symbols of one code point inside a string. -/
  escape : CodePoint → List α
  /-- The width of one level of indentation, if lines are broken. -/
  indent : Option Nat

/-- The escapes that both uses share. -/
def shortEscape? (n : Nat) : Option (List Char) :=
  if n = 34 then some ['\\', '"']
  else if n = 92 then some ['\\', '\\']
  else if n = 10 then some ['\\', 'n']
  else if n = 13 then some ['\\', 'r']
  else if n = 9 then some ['\\', 't']
  else if n = 8 then some ['\\', 'b']
  else if n = 12 then some ['\\', 'f']
  else none

/-- An escape by number, below `10000` in hexadecimal. -/
def numericEscape (n : Nat) : List Char := '\\' :: 'u' :: (Hex.lower 4 n).toList

/-- One code point in ASCII. -/
def asciiEscape (p : CodePoint) : List Char :=
  let n := p.value
  match shortEscape? n with
  | some cs => cs
  | none =>
      if 32 ≤ n ∧ n < 127 then [Char.ofNat n]
      else if n < 0x10000 then numericEscape n
      else
        numericEscape (0xD800 + (n - 0x10000) / 0x400) ++
          numericEscape (0xDC00 + (n - 0x10000) % 0x400)

/-- One code point as it is, unless it is a control character. -/
def plainEscape (p : CodePoint) : Text :=
  match shortEscape? p.value with
  | some cs => cs.map CodePoint.ofChar
  | none => if p.value < 32 then (numericEscape p.value).map CodePoint.ofChar else [p]

/-- Lines indented by two, in ASCII. -/
def documentStyle : Style Char := ⟨id, asciiEscape, some 2⟩

/-- One line in ASCII. -/
def lineStyle : Style Char := ⟨id, asciiEscape, none⟩

/-- One line with all characters as they are. -/
def responseStyle : Style CodePoint := ⟨CodePoint.ofChar, plainEscape, none⟩

variable {α : Type}

def Style.write (st : Style α) (cs : List Char) (acc : List α) : List α :=
  cs.foldl (fun acc c => st.symbol c :: acc) acc

def Style.newline (st : Style α) (depth : Nat) (acc : List α) : List α :=
  match st.indent with
  | none => acc
  | some width => st.write ('\n' :: List.replicate (width * depth) ' ') acc

def Style.colon (st : Style α) (acc : List α) : List α :=
  match st.indent with
  | none => st.write [':'] acc
  | some _ => st.write [':', ' '] acc

def Style.string (st : Style α) (t : Text) (acc : List α) : List α :=
  let body := t.foldl (fun acc p => (st.escape p).foldl (fun acc a => a :: acc) acc) (st.write ['"'] acc)
  st.write ['"'] body

mutual

/-- Writes a value backwards onto what has been written. -/
def Style.value (st : Style α) (depth : Nat) : Json → List α → List α
  | .null, acc => st.write "null".toList acc
  | .bool b, acc => st.write (if b then "true".toList else "false".toList) acc
  | .integer n, acc => st.write (toString n).toList acc
  | .number x, acc => st.write x.text.toList acc
  | .string t, acc => st.string t acc
  | .array [], acc => st.write ['[', ']'] acc
  | .array (v :: vs), acc =>
      let acc := st.value (depth + 1) v (st.newline (depth + 1) (st.write ['['] acc))
      st.write [']'] (st.newline depth (st.items (depth + 1) vs acc))
  | .object [], acc => st.write ['{', '}'] acc
  | .object ((key, v) :: fs), acc =>
      let acc := st.colon (st.string key (st.newline (depth + 1) (st.write ['{'] acc)))
      let acc := st.value (depth + 1) v acc
      st.write ['}'] (st.newline depth (st.members (depth + 1) fs acc))

def Style.items (st : Style α) (depth : Nat) : List Json → List α → List α
  | [], acc => acc
  | v :: vs, acc => st.items depth vs (st.value depth v (st.newline depth (st.write [','] acc)))

def Style.members (st : Style α) (depth : Nat) : List (Text × Json) → List α → List α
  | [], acc => acc
  | (key, v) :: fs, acc =>
      let acc := st.colon (st.string key (st.newline depth (st.write [','] acc)))
      st.members depth fs (st.value depth v acc)

end

/-- The symbols of a value in order. -/
def Style.print (st : Style α) (v : Json) : List α := (st.value 0 v []).reverse

/-- Compares keys by their code points; one that begins with another comes behind it. -/
def keyLe : Text → Text → Bool
  | [], _ => true
  | _ :: _, [] => false
  | p :: ps, q :: qs => p.value < q.value || p.value == q.value && keyLe ps qs

mutual

/-- The value with the fields of every object in the order of their keys. -/
def sorted : Json → Json
  | .array vs => .array (sortedItems vs [])
  | .object fs => .object ((sortedMembers fs []).mergeSort fun a b => keyLe a.1 b.1)
  | v => v

/-- Sorts within every item, and puts the items behind those of `acc`, which are in reverse. -/
def sortedItems : List Json → List Json → List Json
  | [], acc => acc.reverse
  | v :: vs, acc => sortedItems vs (sorted v :: acc)

/-- Sorts within every field, and puts the fields behind those of `acc`, which are in reverse. -/
def sortedMembers : List (Text × Json) → List (Text × Json) → List (Text × Json)
  | [], acc => acc.reverse
  | (key, v) :: fs, acc => sortedMembers fs ((key, sorted v) :: acc)

end

mutual

/-- Whether no integer in a value has more than `limit` digits. -/
def isSpelled (limit : Nat) : Json → Bool
  | .integer n => digitsOf n ≤ limit
  | .array vs => areSpelled limit vs
  | .object fs => fieldsAreSpelled limit fs
  | _ => true

def areSpelled (limit : Nat) : List Json → Bool
  | [] => true
  | v :: vs => isSpelled limit v && areSpelled limit vs

def fieldsAreSpelled (limit : Nat) : List (Text × Json) → Bool
  | [] => true
  | (_, v) :: fs => isSpelled limit v && fieldsAreSpelled limit fs

end

def toLine (v : Json) : String := String.ofList (lineStyle.print v)

/-- A value as a document: sorted, over several lines, with a line feed at the end. -/
def toDocument (v : Json) : String := String.ofList (documentStyle.print v.sorted ++ ['\n'])

end JarRank.Json
