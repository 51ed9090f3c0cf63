import JarRank.Form.Field
import JarRank.Json.Encoding
import JarRank.Json.Parse

/-!
# Requests

A request for the ranking of one archive comes as the bytes of a form. A text
that is no JSON is complained about at the place where it goes wrong, an empty
one and `null` as a form that is missing. Bytes that are no text, numbers too long
and nesting too deep are no matter of the form: it is then not read at all.
-/
namespace JarRank.Service
open Form

structure Request where
  archivePath : String
  /-- How many methods are to be returned. -/
  top : Option Int := none
  /-- Whether the report is to be written to a file. -/
  writesOutputs : Bool := false
  deriving DecidableEq, Repr

inductive Rejection where
  | unreadable
  | invalid (complaints : List Complaint)

namespace Request

def ofForm : Reading Request
  | .object fields =>
      Request.mk <$> Reading.required "archive_path" (Reading.textOfLength 1) (.object fields) <*>
        Reading.withDefault "top_n" (Reading.optional (Reading.integerFrom 0)) none (.object fields) <*>
        Reading.withDefault "write_outputs" Reading.boolean false (.object fields)
  | v => .bad .notObject v

/-- The step that all places of a request begin with. -/
def root : Step := .key "body"

/-- The request that a JSON value is. -/
def ofJson (v : Json) : Except Rejection Request :=
  match v with
  | .null => .error (.invalid [⟨.missing, [root], .null⟩])
  | v => ((ofForm v).under root).mapError .invalid

def ofText (text : Json.Text) : Except Rejection Request :=
  match Json.parse text with
  | .ok v => ofJson v
  | .error (.unexpected fault suffix) =>
      .error (.invalid [⟨.notJson fault, [root, .index (Json.offset text suffix)], .object []⟩])
  | .error _ => .error .unreadable

def ofBytes (body : Bytes) : Except Rejection Request :=
  if body.isEmpty then ofJson .null
  else
    match Json.Encoding.text? body with
    | some text => ofText text
    | none => .error .unreadable

end Request
end JarRank.Service
