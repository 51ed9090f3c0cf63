import JarRank.Json.Parse

/-!
# What can be wrong with a form

A form is a JSON value that is to become a request, a report or a set of
settings. Each fault is complained about by itself: what is wrong, where it is,
and what stands there.
-/
namespace JarRank.Form

inductive Step where
  | key (name : String)
  | index (i : Nat)
  deriving DecidableEq, Repr

inductive Flaw where
  | missing
  | unexpected
  | notJson (fault : Json.Fault)
  | notObject
  | notText
  /-- A text with half of a surrogate pair. -/
  | brokenText
  | tooShort (least : Nat)
  | notInteger
  | unreadableInteger
  | hugeInteger
  | fractionalInteger
  | notFinite
  | below (least : Int)
  | notNumber
  | notBoolean
  | unreadableBoolean
  | notList
  deriving DecidableEq, Repr

namespace Flaw

def label : Flaw → String
  | missing => "missing"
  | unexpected => "extra_forbidden"
  | notJson _ => "json_invalid"
  | notObject => "model_attributes_type"
  | notText => "string_type"
  | brokenText => "string_unicode"
  | tooShort _ => "string_too_short"
  | notInteger => "int_type"
  | unreadableInteger => "int_parsing"
  | hugeInteger => "int_parsing_size"
  | fractionalInteger => "int_from_float"
  | notFinite => "finite_number"
  | below _ => "greater_than_equal"
  | notNumber => "float_type"
  | notBoolean => "bool_type"
  | unreadableBoolean => "bool_parsing"
  | notList => "list_type"

def message : Flaw → String
  | missing => "Field required"
  | unexpected => "Extra inputs are not permitted"
  | notJson _ => "JSON decode error"
  | notObject => "Input should be a valid dictionary or object to extract fields from"
  | notText => "Input should be a valid string"
  | brokenText =>
      "Input should be a valid string, unable to parse raw data as a unicode string"
  | tooShort least =>
      "String should have at least " ++ toString least ++
        (if least = 1 then " character" else " characters")
  | notInteger => "Input should be a valid integer"
  | unreadableInteger => "Input should be a valid integer, unable to parse string as an integer"
  | hugeInteger => "Unable to parse input string as an integer, exceeded maximum size"
  | fractionalInteger => "Input should be a valid integer, got a number with a fractional part"
  | notFinite => "Input should be a finite number"
  | below least => "Input should be greater than or equal to " ++ toString least
  | notNumber => "Input should be a valid number"
  | notBoolean => "Input should be a valid boolean"
  | unreadableBoolean => "Input should be a valid boolean, unable to interpret input"
  | notList => "Input should be a valid list"

/-- What the words mention or leave out, by name. -/
def context : Flaw → List (String × Json)
  | notJson fault => [("error", .text fault.message)]
  | tooShort least => [("min_length", .integer least)]
  | below least => [("ge", .integer least)]
  | _ => []

end Flaw

structure Complaint where
  flaw : Flaw
  place : List Step
  input : Json := .null
  deriving Repr

/-- The complaint as seen from one step further out. -/
def Complaint.under (step : Step) (c : Complaint) : Complaint := { c with place := step :: c.place }

/-- A value, or everything that is wrong with it. -/
def Checked (α : Type) := Except (List Complaint) α

namespace Checked

variable {α β : Type}

def good (a : α) : Checked α := .ok a

/-- One flaw at the place itself. -/
def bad (flaw : Flaw) (input : Json) : Checked α := .error [⟨flaw, [], input⟩]

def complaints : Checked α → List Complaint
  | .ok _ => []
  | .error cs => cs

/-- Two parts of a value; the complaints about both are kept, in order. -/
protected def seq (f : Checked (α → β)) (x : Unit → Checked α) : Checked β :=
  match f, x () with
  | .ok f, .ok a => .ok (f a)
  | f, a => .error (complaints f ++ complaints a)

instance : Applicative Checked where
  pure := good
  seq := Checked.seq

/-- The value of a part, with complaints as seen from outside. -/
def under (step : Step) : Checked α → Checked α
  | .ok a => .ok a
  | .error cs => .error (cs.map (Complaint.under step))

/-- A value that is computed from another, once nothing is wrong with that. -/
def andThen (x : Checked α) (f : α → Checked β) : Checked β :=
  match x with
  | .ok a => f a
  | .error cs => .error cs

end Checked
end JarRank.Form
