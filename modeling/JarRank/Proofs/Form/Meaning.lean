import JarRank.Form.Field

/-!
# What the values of a form stand for

A person may have filled in the form, so an integer or a truth value stands in it in more
than one way. The readers of a form give a value for what stands for one, and for nothing
else.
-/
namespace JarRank.Form

variable {α β : Type}

/-- A string without half of a surrogate pair stands for its text. -/
inductive ForText : Json → String → Prop
  | string {t : Json.Text} {s : String} : t.toString? = some s → ForText (.string t) s

/-- A number without a fraction stands for an integer if it fits into 64 bits; an
integer that is written as one may be of any size. -/
inductive ForInteger : Json → Int → Prop
  | integer (n : Int) : ForInteger (.integer n) n
  | bool (b : Bool) : ForInteger (.bool b) b.toInt
  | number {x : Binary64} {n : Int} : x.toInt? = some n → n.natAbs < Reading.integerLimit →
      ForInteger (.number x) n
  | text {v : Json} {s : String} {n : Int} : ForText v s → Numeral.ofForm s = .ok n →
      ForInteger v n

/-- Zero and one stand for the truth values, and so do some words. -/
inductive ForBoolean : Json → Bool → Prop
  | bool (b : Bool) : ForBoolean (.bool b) b
  | integer (b : Bool) : ForBoolean (.integer b.toInt) b
  | number {x : Binary64} {b : Bool} : x.toInt? = some b.toInt → ForBoolean (.number x) b
  | text {v : Json} {s : String} {b : Bool} : ForText v s → Reading.words.lookup s.toLower = some b →
      ForBoolean v b

namespace Checked

end Checked

namespace Reading
open Checked

end Reading
end JarRank.Form
