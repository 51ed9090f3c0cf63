import JarRank.Form.Complaint
import JarRank.Number.Numeral

/-!
# Fields of a form

How the fields of a form are read. A field is lenient where a person may have
filled it in: numbers and truth values may be written as text, and a number
without a fraction is an integer.
-/
namespace JarRank.Form

/-- How one place of a form is read. -/
abbrev Reading (α : Type) := Json → Checked α

namespace Reading

variable {α : Type}

def text : Reading String
  | .string t =>
      match t.toString? with
      | some s => .good s
      | none => .bad .brokenText (.string t)
  | v => .bad .notText v

/-- A text with a number of characters at least. -/
def textOfLength (least : Nat) : Reading String := fun v =>
  (text v).andThen fun s => if s.length < least then .bad (.tooShort least) v else .good s

/-- Integers from here on have no place in 64 bits with a sign. -/
def integerLimit : Int := 0x8000000000000000

/-- The integers that a value is rounded to without loss; those of 64 bits alone. -/
def ofBinary64 (x : Binary64) : Checked Int :=
  if !x.isFinite then .bad .notFinite (.number x)
  else
    match x.toInt? with
    | none => .bad .fractionalInteger (.number x)
    | some n => if n.natAbs < integerLimit then .good n else .bad .hugeInteger (.number x)

def integer : Reading Int
  | .integer n => .good n
  | .bool b => .good (if b then 1 else 0)
  | .number x => ofBinary64 x
  | .string t =>
      (text (.string t)).andThen fun s =>
        match Numeral.ofForm s with
        | .ok n => .good n
        | .error .unreadable => .bad .unreadableInteger (.string t)
        | .error .tooLong => .bad .hugeInteger (.string t)
  | v => .bad .notInteger v

/-- An integer from a number on. -/
def integerFrom (least : Int) : Reading Int := fun v =>
  (integer v).andThen fun n => if n < least then .bad (.below least) v else .good n

def number : Reading Binary64
  | .number x => .good x
  | .integer n => .good (.ofRatio (n < 0) n.natAbs 1)
  | .bool b => .good (.ofRatio false (if b then 1 else 0) 1)
  | v => .bad .notNumber v

/-- The words for either truth value, in lower case. -/
def words : List (String × Bool) := [
  ("0", false), ("off", false), ("f", false), ("false", false), ("n", false), ("no", false),
  ("1", true), ("on", true), ("t", true), ("true", true), ("y", true), ("yes", true)]

/-- The truth value that an integer stands for. -/
def booleanOfInteger (v : Json) (n : Int) : Checked Bool :=
  if n = 0 then .good false else if n = 1 then .good true else .bad .unreadableBoolean v

def boolean : Reading Bool
  | .bool b => .good b
  | .integer n =>
      if -integerLimit ≤ n ∧ n < integerLimit then booleanOfInteger (.integer n) n
      else .bad .notBoolean (.integer n)
  | .number x =>
      match ofBinary64 x with
      | .ok n => booleanOfInteger (.number x) n
      | .error _ => .bad .notBoolean (.number x)
  | .string t =>
      (text (.string t)).andThen fun s =>
        match words.lookup s.toLower with
        | some b => .good b
        | none => .bad .unreadableBoolean (.string t)
  | v => .bad .notBoolean v

/-- A value that may be absent, as `null`. -/
def optional (r : Reading α) : Reading (Option α)
  | .null => .good none
  | v => some <$> r v

/-- The items from an index on. -/
def itemsFrom (r : Reading α) : Nat → List Json → Checked (List α)
  | _, [] => .good []
  | i, v :: vs => List.cons <$> (r v).under (.index i) <*> itemsFrom r (i + 1) vs

def list (r : Reading α) : Reading (List α)
  | .array vs => itemsFrom r 0 vs
  | v => .bad .notList v

/-- A field that an object must have. -/
def required (key : String) (r : Reading α) : Reading α := fun v =>
  match v.field? key with
  | some w => (r w).under (.key key)
  | none => Checked.under (.key key) (.bad .missing v)

/-- A field that an object may have. -/
def withDefault (key : String) (r : Reading α) (default : α) : Reading α := fun v =>
  match v.field? key with
  | some w => (r w).under (.key key)
  | none => .good default

end Reading
end JarRank.Form
