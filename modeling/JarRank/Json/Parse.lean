import JarRank.Bytes.Hex
import JarRank.Json.Basic
import JarRank.Number.Numeral

/-!
# Reading JSON

A recursive reader over code points. Where a text is not JSON, the place of the
fault is a suffix of the text: the unread part at which a value, a key or a
delimiter was expected, the quote that opens a string without end, the control
character inside a string, or the backslash or `u` of an escape that is none.
Half of a surrogate pair may stand in a string, and nowhere else.

`NaN` and the two infinities are numbers. An integer may have so many digits
and no more, and a value may be nested in so many others. Of several values
that an object has for one key the last holds, in the place of the first.
-/
namespace JarRank.Json

/-- What is wrong where a text stops being JSON. -/
inductive Fault where
  | noValue
  | noKey
  | noColon
  | noComma
  | endlessString
  | controlCharacter
  | unknownEscape
  /-- An escape by number has not four digits. -/
  | shortEscape
  | trailing
  deriving DecidableEq, Repr

def Fault.message : Fault → String
  | noValue => "Expecting value"
  | noKey => "Expecting property name enclosed in double quotes"
  | noColon => "Expecting ':' delimiter"
  | noComma => "Expecting ',' delimiter"
  | endlessString => "Unterminated string starting at"
  | controlCharacter => "Invalid control character at"
  | unknownEscape => "Invalid \\escape"
  | shortEscape => "Invalid \\uXXXX escape"
  | trailing => "Extra data"

inductive Stop where
  /-- The text is not JSON at the place where this suffix begins. -/
  | unexpected (fault : Fault) (suffix : Text)
  | integerTooLong
  | tooDeep
  deriving DecidableEq, Repr

/-- A value, key or piece of one, and the code points behind it. -/
abbrev Read (α : Type) := Except Stop (α × Text)

def isBlank (c : Char) : Bool := c = ' ' || c = '\t' || c = '\n' || c = '\r'

/-- The text behind its leading blanks. -/
def skipBlanks (s : Text) : Text := s.dropWhile fun p => isBlank p.char

/-- What stands behind a character, if a text begins with it. -/
def behind? (c : Char) : Text → Option Text
  | [] => none
  | p :: s => if p.char = c then some s else none

/-- Adds the code point of an escape; the second half of a pair completes the first. -/
def pushEscaped (n : Nat) (h : n < 0x10000) : Text → Text
  | [] => [⟨n, by omega⟩]
  | p :: acc =>
      if hp : 0xD800 ≤ p.value ∧ p.value < 0xDC00 ∧ 0xDC00 ≤ n ∧ n < 0xE000 then
        ⟨0x10000 + (p.value - 0xD800) * 0x400 + (n - 0xDC00), by omega⟩ :: acc
      else ⟨n, by omega⟩ :: p :: acc

/-- Where the reader is inside a string. -/
inductive Inside where
  | plain
  /-- Behind a backslash, which begins the suffix. -/
  | escape (backslash : Text)
  /-- Behind a `u`, which begins the suffix, with digits still to come. -/
  | digits (u : Text) (left value : Nat)

/-- The character that a short escape stands for. -/
def unescape? (c : Char) : Option Char :=
  if c = '"' ∨ c = '\\' ∨ c = '/' then some c
  else if c = 'b' then some '\x08'
  else if c = 'f' then some '\x0c'
  else if c = 'n' then some '\n'
  else if c = 'r' then some '\r'
  else if c = 't' then some '\t'
  else none

/-- The rest of a string that `opening` begins. -/
def stringRest (opening : Text) : Inside → Text → Text → Read Text
  | .plain, [], _ => .error (.unexpected .endlessString opening)
  | .escape _, [], _ => .error (.unexpected .endlessString opening)
  | .digits u _ _, [], _ => .error (.unexpected .shortEscape u)
  | .plain, p :: ps, acc =>
      if p.char = '"' then .ok (acc.reverse, ps)
      else if p.char = '\\' then stringRest opening (.escape (p :: ps)) ps acc
      else if p.char < ' ' then .error (.unexpected .controlCharacter (p :: ps))
      else stringRest opening .plain ps (p :: acc)
  | .escape backslash, p :: ps, acc =>
      if p.char = 'u' then stringRest opening (.digits (p :: ps) 4 0) ps acc
      else
        match unescape? p.char with
        | some c => stringRest opening .plain ps (CodePoint.ofChar c :: acc)
        | none => .error (.unexpected .unknownEscape backslash)
  | .digits u left value, p :: ps, acc =>
      match Hex.value? p.char with
      | none => .error (.unexpected .shortEscape u)
      | some d =>
          let value := value * 16 + d
          if 1 < left then stringRest opening (.digits u (left - 1) value) ps acc
          else if h : value < 0x10000 ∧ ps ≠ [] then
            stringRest opening .plain ps (pushEscaped value h.1 acc)
          else .error (.unexpected .shortEscape u)

/-- The number that a run of ASCII digits spells. -/
def natOfDigits (ds : List Char) : Nat := ds.foldl (fun n c => n * 10 + (c.toNat - 48)) 0

def isDigit (c : Char) : Bool := '0' ≤ c && c ≤ '9'

/-- The digits of a whole part and what follows: a zero stands alone. -/
def wholePart (s : List Char) : Option (List Char × List Char) :=
  match s with
  | [] => none
  | c :: cs =>
      if c = '0' then some ([c], cs)
      else if isDigit c then some (c :: cs.takeWhile isDigit, cs.dropWhile isDigit)
      else none

/-- The digits behind a point, if there are any. -/
def fraction (s : List Char) : List Char × List Char :=
  match s with
  | '.' :: cs =>
      if (cs.takeWhile isDigit).isEmpty then ([], s) else (cs.takeWhile isDigit, cs.dropWhile isDigit)
  | _ => ([], s)

/-- An exponent, if there is a whole one. -/
def exponent (s : List Char) : Option Int × List Char :=
  match s with
  | e :: cs =>
      if e = 'e' ∨ e = 'E' then
        let (negative, ds) := Numeral.splitSign cs
        if (ds.takeWhile isDigit).isEmpty then (none, s)
        else
          let n : Int := natOfDigits (ds.takeWhile isDigit)
          (some (if negative then -n else n), ds.dropWhile isDigit)
      else (none, s)
  | [] => (none, s)

/-- The number that `start` begins, from characters behind its sign. An integer has at most
`limit` digits. -/
def unsigned (limit : Nat) (start : Text) (negative : Bool) (s : List Char) :
    Except Stop (Json × List Char) :=
  match wholePart s with
  | none => .error (.unexpected .noValue start)
  | some (whole, s) =>
      let (behind, s) := fraction s
      let (power, s) := exponent s
      if behind.isEmpty ∧ power = none then
        if limit < whole.length then .error .integerTooLong
        else
          let n : Int := natOfDigits whole
          .ok (.integer (if negative then -n else n), s)
      else
        let x := Binary64.ofDecimal negative (natOfDigits (whole ++ behind))
          (power.getD 0 - behind.length)
        .ok (.number x, s)

/-- Whether a character may stand in a number. -/
def isNumeric (c : Char) : Bool :=
  isDigit c || c = '.' || c = '-' || c = '+' || c = 'e' || c = 'E'

/-- The characters that may be a number, from where a text begins. -/
def numericRun (s : Text) : List Char :=
  (s.takeWhile fun p => isNumeric p.char).map CodePoint.char

def numeral (limit : Nat) (start : Text) : Read Json :=
  let run := numericRun start
  let (negative, s) := Numeral.splitMinus run
  match unsigned limit start negative s with
  | .ok (v, rest) => .ok (v, start.drop (run.length - rest.length))
  | .error stop => .error stop

/-- The words that are values. -/
def words : List (Text × Json) := [
  (.ofString "null", .null), (.ofString "true", .bool true), (.ofString "false", .bool false),
  (.ofString "NaN", .number .nan), (.ofString "Infinity", .number (.infinite false)),
  (.ofString "-Infinity", .number (.infinite true))]

/-- A word or a number. -/
def scalar (limit : Nat) (s : Text) : Read Json :=
  match words.find? fun w => w.1.isPrefixOf s with
  | some (w, v) => .ok (v, s.drop w.length)
  | none => numeral limit s

/-- Fields, the last one first, and one more; of two with one key the value of the later
stands in the place of the earlier. -/
def putField (key : Text) (v : Json) (fs : List (Text × Json)) : List (Text × Json) :=
  if fs.any fun f => f.1 == key then fs.map fun f => if f.1 == key then (key, v) else f
  else (key, v) :: fs

mutual

/-- A value that begins at once; `room` is how deep it may be. -/
def value (limit : Nat) : (fuel : Nat) → (room : Nat) → Text → Read Json
  | 0, _, s => .error (.unexpected .noValue s)
  | _ + 1, _, [] => .error (.unexpected .noValue [])
  | fuel + 1, room, p :: s =>
      if p.char = '"' then
        match stringRest (p :: s) .plain s [] with
        | .ok (t, rest) => .ok (.string t, rest)
        | .error stop => .error stop
      else if p.char = '[' then
        match room, behind? ']' (skipBlanks s) with
        | 0, _ => .error .tooDeep
        | _ + 1, some rest => .ok (.array [], rest)
        | room + 1, none => items limit fuel room (skipBlanks s) []
      else if p.char = '\x7b' then
        match room, behind? '\x7d' (skipBlanks s) with
        | 0, _ => .error .tooDeep
        | _ + 1, some rest => .ok (.object [], rest)
        | room + 1, none => members limit fuel room (skipBlanks s) []
      else scalar limit (p :: s)

/-- The items from here to the end of an array. -/
def items (limit : Nat) : (fuel : Nat) → (room : Nat) → Text → List Json → Read Json
  | 0, _, s, _ => .error (.unexpected .noValue s)
  | fuel + 1, room, s, acc =>
      match value limit fuel room s with
      | .error stop => .error stop
      | .ok (v, rest) =>
          let rest := skipBlanks rest
          match behind? ']' rest, behind? ',' rest with
          | some rest, _ => .ok (.array (v :: acc).reverse, rest)
          | none, some rest => items limit fuel room (skipBlanks rest) (v :: acc)
          | none, none => .error (.unexpected .noComma rest)

/-- The fields from here to the end of an object. -/
def members (limit : Nat) : (fuel : Nat) → (room : Nat) → Text → List (Text × Json) → Read Json
  | 0, _, s, _ => .error (.unexpected .noKey s)
  | fuel + 1, room, s, acc =>
      match behind? '"' s with
      | none => .error (.unexpected .noKey s)
      | some rest =>
          match stringRest s .plain rest [] with
          | .error stop => .error stop
          | .ok (key, rest) =>
              match behind? ':' (skipBlanks rest) with
              | none => .error (.unexpected .noColon (skipBlanks rest))
              | some rest =>
                  match value limit fuel room (skipBlanks rest) with
                  | .error stop => .error stop
                  | .ok (v, rest) =>
                      let rest := skipBlanks rest
                      match behind? '\x7d' rest, behind? ',' rest with
                      | some rest, _ => .ok (.object (putField key v acc).reverse, rest)
                      | none, some rest => members limit fuel room (skipBlanks rest) (putField key v acc)
                      | none, none => .error (.unexpected .noComma rest)

end

/-- The value that a whole text spells, with blanks around it, if its integers have at most `limit`
digits each and no value is nested in more than `depth` others. -/
def parseWithin (limit depth : Nat) (s : Text) : Except Stop Json :=
  match value limit (2 * s.length + 2) depth (skipBlanks s) with
  | .error stop => .error stop
  | .ok (v, rest) =>
      match skipBlanks rest with
      | [] => .ok v
      | rest => .error (.unexpected .trailing rest)

/-- How many values a value may be nested in where the body of a request is read. It is what is
left there of the thousand calls that may be open at a time, and so the figure of one place: it
is larger where fewer are open. What is printed may be nested as deep as it likes here. -/
def maxDepth : Nat := 950

def parse (s : Text) : Except Stop Json := parseWithin Numeral.maxDigits maxDepth s

/-- How many code points stand before a suffix of a text. -/
def offset (s suffix : Text) : Nat := s.length - suffix.length

end JarRank.Json
