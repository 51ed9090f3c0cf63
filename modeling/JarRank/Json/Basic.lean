import JarRank.Number.Shortest

/-!
# JSON values

A JSON string is a sequence of code points rather than of characters: an escape
may name a surrogate that no second one completes, and such a string is still a
value. Numbers are integers of any size or binary64 values, as their text has a
fraction or exponent or not. The fields of an object keep their order.
-/
namespace JarRank.Json

/-- A Unicode code point, which may be a surrogate. -/
structure CodePoint where
  value : Nat
  inRange : value < 0x110000
  deriving DecidableEq, Repr

namespace CodePoint

def ofChar (c : Char) : CodePoint :=
  ⟨c.toNat, by
    have h := c.valid
    simp only [UInt32.isValidChar, Nat.isValidChar] at h
    simp only [Char.toNat]
    omega⟩

/-- Whether this is half of a pair. -/
def isSurrogate (p : CodePoint) : Bool := 0xD800 ≤ p.value && p.value ≤ 0xDFFF

def toChar? (p : CodePoint) : Option Char :=
  if p.isSurrogate then none else some (Char.ofNat p.value)

/-- The character that it is taken for where half of a pair means nothing. -/
def char (p : CodePoint) : Char := p.toChar?.getD '\uFFFD'

@[simp] theorem isSurrogate_ofChar (c : Char) : (ofChar c).isSurrogate = false := by
  have h : c.toNat.isValidChar := c.valid
  have hv : (ofChar c).value = c.toNat := rfl
  unfold Nat.isValidChar at h
  rw [isSurrogate, hv, Bool.and_eq_false_iff]
  rcases h with h | h
  · exact .inl (decide_eq_false (by omega))
  · exact .inr (decide_eq_false (by omega))

@[simp] theorem toChar?_ofChar (c : Char) : (ofChar c).toChar? = some c := by
  rw [toChar?, isSurrogate_ofChar]
  exact congrArg some (Char.ofNat_toNat c)

@[simp] theorem char_ofChar (c : Char) : (ofChar c).char = c := by simp [char]

end CodePoint

/-- The content of a JSON string. -/
abbrev Text := List CodePoint

namespace Text

def ofString (s : String) : Text := s.toList.map CodePoint.ofChar

def toString? (t : Text) : Option String := (t.mapM CodePoint.toChar?).map String.ofList

end Text
end Json

inductive Json where
  | null
  | bool (b : Bool)
  | integer (n : Int)
  | number (x : Binary64)
  | string (s : Json.Text)
  | array (items : List Json)
  | object (fields : List (Json.Text × Json))
  deriving Repr

namespace Json

def text (s : String) : Json := string (Text.ofString s)

/-- A text, or `null` where there is none. -/
def textOrNull : Option String → Json
  | some s => text s
  | none => null

/-- An object whose keys are texts. -/
def record (fields : List (String × Json)) : Json :=
  object (fields.map fun (key, value) => (Text.ofString key, value))

/-- How many digits an integer has. -/
def digitsOf (n : Int) : Nat := (Nat.toDigits 10 n.natAbs).length

/-- The value of a field; of several with one key, the last. -/
def field? (key : String) : Json → Option Json
  | object fields => (fields.reverse.find? fun f => f.1 == Text.ofString key).map (·.2)
  | _ => none

end Json
end JarRank
