import JarRank.Files.Tree
import JarRank.Form.Complaint
import JarRank.Json.Print
import JarRank.Ranking.Run

/-!
# Replies

A reply is a status and a JSON value, which is sent as UTF-8. A value that holds
a number that is not finite, or half of a surrogate pair, cannot be sent; then
the reply is that of any other fault which nobody has foreseen.
-/
namespace JarRank.Service

inductive Unsendable where
  | notFinite
  /-- The first surrogate of the text, its position, and how many stand together there. -/
  | surrogates (first position count : Nat)
  deriving DecidableEq, Repr

def Unsendable.message : Unsendable → String
  | notFinite => "Out of range float values are not JSON compliant"
  | surrogates first position count =>
      let place :=
        if count = 1 then
          "character '\\u" ++ Hex.lower 4 first ++ "' in position " ++ toString position
        else
          "characters in position " ++ toString position ++ "-" ++ toString (position + count - 1)
      "'utf-8' codec can't encode " ++ place ++ ": surrogates not allowed"

mutual

/-- Whether all numbers in a value are finite. -/
def isFinite : Json → Bool
  | .number x => x.isFinite
  | .array vs => areFinite vs
  | .object fs => fieldsAreFinite fs
  | _ => true

/-- Whether all numbers in some values are finite. -/
def areFinite : List Json → Bool
  | [] => true
  | v :: vs => isFinite v && areFinite vs

/-- Whether all numbers in some fields are finite. -/
def fieldsAreFinite : List (Json.Text × Json) → Bool
  | [] => true
  | (_, v) :: fs => isFinite v && fieldsAreFinite fs

end

/-- Why a value cannot be sent, if it cannot. -/
def unsendable? (v : Json) : Option Unsendable :=
  if !isFinite v then some .notFinite
  else
    let text := Json.responseStyle.print v
    let front := text.takeWhile fun p => !p.isSurrogate
    match text.drop front.length with
    | [] => none
    | p :: rest =>
        some (.surrogates p.value front.length (1 + (rest.takeWhile Json.CodePoint.isSurrogate).length))

inductive Fault where
  | run (fault : RunFault)
  | sending (fault : Unsendable)
  deriving DecidableEq, Repr

inductive Body where
  | json (v : Json)
  | text (s : String)

structure Reply where
  status : Nat
  body : Body
  /-- The fault behind a reply that says nothing about it. -/
  raised : Option Fault := none

namespace Reply

/-- The reply to a request that a fault has kept from being answered. -/
def ofFault (fault : Fault) : Reply := ⟨500, .text "Internal Server Error", some fault⟩

def ofJson (status : Nat) (v : Json) : Reply :=
  match unsendable? v with
  | some fault => ofFault (.sending fault)
  | none => ⟨status, .json v, none⟩

/-- The reply to a request that is to be made again at another path. -/
def elsewhere : Reply := ⟨307, .text "", none⟩

def ofDetail (status : Nat) (detail : Json) : Reply := ofJson status (.record [("detail", detail)])

end Reply

/-- One step of a place as a value. -/
def stepJson : Form.Step → Json
  | .key name => .text name
  | .index i => .integer i

/-- A complaint as a value, which repeats what was sent. -/
def complaintJson (c : Form.Complaint) : Json :=
  let context := c.flaw.context
  .record ([("type", .text c.flaw.label), ("loc", .array (c.place.map stepJson)),
    ("msg", .text c.flaw.message), ("input", c.input)] ++
    if context.isEmpty then [] else [("ctx", .record context)])

end JarRank.Service
