import JarRank.Form.Field

/-!
# One flaw at a place

The fields of a form can be wrong each by itself, and all that is wrong is complained
about. A field that is one text, number or truth value has one flaw at most: reading it
gives a value, or one complaint that repeats what stands there.
-/
namespace JarRank.Form

variable {α β : Type}

namespace Checked

/-- A value, or one flaw in what stands at a place. -/
inductive Direct (place : List Step) (v : Json) : Checked α → Prop
  | good (a : α) : Direct place v (.good a)
  | bad (flaw : Flaw) : Direct place v (.error [⟨flaw, place, v⟩])

namespace Direct

variable {place : List Step} {v : Json} {x : Checked α}

theorem andThen {f : α → Checked β} (hx : x.Direct place v) (hf : ∀ a, (f a).Direct place v) :
    (x.andThen f).Direct place v := by
  cases hx with
  | good a => exact hf a
  | bad flaw => exact .bad flaw

theorem map (f : α → β) (hx : x.Direct place v) : (f <$> x).Direct place v := by
  cases hx with
  | good a => exact .good (f a)
  | bad flaw => exact .bad flaw

theorem under (step : Step) (hx : x.Direct place v) : (x.under step).Direct (step :: place) v := by
  cases hx with
  | good a => exact .good a
  | bad flaw => exact .bad flaw

end Direct

end Checked

namespace Reading
open Checked (Direct)

end Reading
end JarRank.Form
