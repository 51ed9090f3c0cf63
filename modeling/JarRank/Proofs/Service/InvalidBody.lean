import JarRank.Proofs.Form.Meaning
import JarRank.Proofs.Form.OneFlaw
import JarRank.Proofs.Service.Sendable
import JarRank.Service.Endpoint
import Mathlib.Data.List.Basic

/-!
# Bodies that are no requests

A body that is no request is answered with 422 and a list of complaints, and no file is
changed. The list has one complaint for each field that is wrong, in the order of the
fields, or one about the body as a whole. A complaint repeats what was sent, and what
can be read is more than what can be sent: `NaN` and the two infinities are read as
numbers, so is every numeral that is too large, and an escape may name half of a
surrogate pair. Where a complaint repeats one of these, the answer is 500.
-/
namespace JarRank.Service
open Form

namespace Request

inductive Field where
  | archivePath
  | top
  | writesOutputs
  deriving DecidableEq, Repr

namespace Field

def key : Field → String
  | archivePath => "archive_path"
  | top => "top_n"
  | writesOutputs => "write_outputs"

/-- A form must have a path. It may have a number of methods, from zero on, and may say
whether files are to be written. -/
def Proper (v : Json) : Field → Prop
  | archivePath => ∃ w s, v.field? "archive_path" = some w ∧ ForText w s ∧ 1 ≤ s.length
  | top => ∀ w, v.field? "top_n" = some w → w = .null ∨ ∃ n, ForInteger w n ∧ 0 ≤ n
  | writesOutputs => ∀ w, v.field? "write_outputs" = some w → ∃ b, ForBoolean w b

/-- What is complained about in a field of a form. A complaint repeats the value of the
field, or the whole form where it has none. -/
inductive Complains (v : Json) (f : Field) : List Complaint → Prop
  | proper : f.Proper v → Complains v f []
  | improper (flaw : Flaw) : ¬ f.Proper v →
      Complains v f [⟨flaw, [root, .key f.key], (v.field? f.key).getD v⟩]

end Field

/-- What is complained about in a value: in an object, each field that is wrong. -/
inductive ComplainsOf : Json → List Complaint → Prop
  | null : ComplainsOf .null [⟨.missing, [root], .null⟩]
  | notObject {v : Json} : v ≠ .null → (∀ fs, v ≠ .object fs) →
      ComplainsOf v [⟨.notObject, [root], v⟩]
  | fields {fs : List (Json.Text × Json)} {path top outputs : List Complaint} :
      Field.archivePath.Complains (.object fs) path → Field.top.Complains (.object fs) top →
      Field.writesOutputs.Complains (.object fs) outputs →
      ComplainsOf (.object fs) (path ++ top ++ outputs)

/-- What is complained about in the bytes of a body. -/
inductive Complains (body : Bytes) : List Complaint → Prop
  | empty : body = [] → Complains body [⟨.missing, [root], .null⟩]
  | notJson {fault : Json.Fault} {text suffix : Json.Text} : body ≠ [] →
      Json.Encoding.text? body = some text → Json.parse text = .error (.unexpected fault suffix) →
      Complains body [⟨.notJson fault, [root, .index (Json.offset text suffix)], .object []⟩]
  | value {text : Json.Text} {v : Json} {cs : List Complaint} : body ≠ [] →
      Json.Encoding.text? body = some text → Json.parse text = .ok v → ComplainsOf v cs →
      Complains body cs

/-- Bytes that are no text, or a text that is too much to be read. -/
def Unread (body : Bytes) : Prop :=
  body ≠ [] ∧ ∀ text, Json.Encoding.text? body = some text →
    Json.parse text = .error .integerTooLong ∨ Json.parse text = .error .tooDeep

end Request

/-- How complaints are answered: by all of them, unless one repeats what cannot be sent. -/
inductive Answers (cs : List Complaint) : Reply → Prop
  | sent : (∀ c ∈ cs, ¬ c.input.Holds NotFinite ∧ ¬ c.input.Holds Json.IsBroken) →
      Answers cs ⟨422, .json (.record [("detail", .array (cs.map complaintJson))]), none⟩
  | notFinite : (∃ c ∈ cs, c.input.Holds NotFinite) →
      Answers cs (.ofFault (.sending .notFinite))
  | surrogates (first position count : Nat) : (∀ c ∈ cs, ¬ c.input.Holds NotFinite) →
      (∃ c ∈ cs, c.input.Holds Json.IsBroken) →
      Answers cs (.ofFault (.sending (.surrogates first position count)))

/-- A text can always be sent as a detail. -/
theorem ofDetail_text (status : Nat) (s : String) :
    Reply.ofDetail status (.text s) = ⟨status, .json (.record [("detail", .text s)]), none⟩ :=
  ofDetail_of_foreign status fun _ hP => hP.holds_text s

end JarRank.Service
