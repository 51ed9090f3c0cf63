import JarRank.Proofs.Json.Contents
import JarRank.Service.Reply
import Mathlib.Data.List.TakeWhile

/-!
# What can be sent

A value can be sent unless it holds a number that is not finite or a string with half of a
surrogate pair. Of a list of complaints only what was sent before, and is repeated, can
hold one of these.
-/
namespace JarRank.Service
open Form

/-- A number that is not finite. -/
def NotFinite (v : Json) : Prop := ∃ x, v = .number x ∧ x.isFinite = false

mutual

theorem isFinite_eq_false_iff : ∀ v : Json, isFinite v = false ↔ v.Holds NotFinite
  | .number x => by
    rw [isFinite, Json.Holds.iff_self (by simp) (by simp)]
    simp [NotFinite]
  | .array vs => by
    rw [isFinite, areFinite_eq_false_iff, Json.Holds.array_iff]
    simp [NotFinite]
  | .object fs => by
    rw [isFinite, fieldsAreFinite_eq_false_iff, Json.Holds.object_iff]
    simp [NotFinite]
  | .null | .bool _ | .integer _ | .string _ => by
    rw [Json.Holds.iff_self (by simp) (by simp)]
    simp [isFinite, NotFinite]

theorem areFinite_eq_false_iff : ∀ vs : List Json,
    areFinite vs = false ↔ ∃ v ∈ vs, v.Holds NotFinite
  | [] => by simp [areFinite]
  | v :: vs => by
    rw [areFinite, Bool.and_eq_false_iff, isFinite_eq_false_iff v, areFinite_eq_false_iff vs]
    simp

theorem fieldsAreFinite_eq_false_iff : ∀ fs : List (Json.Text × Json),
    fieldsAreFinite fs = false ↔ ∃ f ∈ fs, f.2.Holds NotFinite
  | [] => by simp [fieldsAreFinite]
  | (_, v) :: fs => by
    rw [fieldsAreFinite, Bool.and_eq_false_iff, isFinite_eq_false_iff v,
      fieldsAreFinite_eq_false_iff fs]
    simp

end

theorem drop_takeWhile {α : Type} (p : α → Bool) (l : List α) :
    l.drop (l.takeWhile p).length = l.dropWhile p := by
  have h : (l.takeWhile p ++ l.dropWhile p).drop (l.takeWhile p).length = l.dropWhile p :=
    List.drop_left
  rwa [List.takeWhile_append_dropWhile] at h

theorem unsendable?_of_finite {v : Json} (hf : ¬ v.Holds NotFinite) :
    (¬ v.Holds Json.IsBroken → unsendable? v = none) ∧
      (v.Holds Json.IsBroken →
        ∃ first position count, unsendable? v = some (.surrogates first position count)) := by
  have hfinite : isFinite v = true := by
    rw [← Bool.not_eq_false]
    exact fun h => hf ((isFinite_eq_false_iff v).1 h)
  have hnil : (Json.responseStyle.print v).dropWhile (fun p => !p.isSurrogate) = [] ↔
      ¬ v.Holds Json.IsBroken := by
    rw [← Json.broken_print, List.dropWhile_eq_nil_iff]
    simp [Json.Text.Broken]
  constructor
  · intro h
    simp [unsendable?, hfinite, drop_takeWhile, hnil.2 h]
  · intro h
    obtain ⟨p, rest, hp⟩ := List.exists_cons_of_ne_nil fun hn => hnil.1 hn h
    simp [unsendable?, hfinite, drop_takeWhile, hp]

/-- A property that no text and no integer has, and no array and no object by itself. -/
structure Foreign (P : Json → Prop) : Prop where
  text : ∀ s, ¬ P (.text s)
  integer : ∀ n, ¬ P (.integer n)
  array : ∀ vs, ¬ P (.array vs)
  object : ∀ fs, ¬ P (.object fs)

theorem foreign_notFinite : Foreign NotFinite where
  text _ := by simp [NotFinite, Json.text]
  integer _ := by simp [NotFinite]
  array _ := by simp [NotFinite]
  object _ := by simp [NotFinite]

theorem foreign_isBroken : Foreign Json.IsBroken where
  text s := by simp [Json.text, Json.Text.ofString]
  integer _ := by simp [Json.IsBroken]
  array _ := Json.not_isBroken_array
  object _ := Json.not_isBroken_object

namespace Foreign

variable {P : Json → Prop}

theorem holds_text (hP : Foreign P) (s : String) : ¬ (Json.text s).Holds P := by
  rw [Json.text, Json.Holds.iff_self (by simp) (by simp)]
  exact hP.text s

theorem holds_integer (hP : Foreign P) (n : Int) : ¬ (Json.integer n).Holds P := by
  rw [Json.Holds.iff_self (by simp) (by simp)]
  exact hP.integer n

theorem holds_array (hP : Foreign P) {vs : List Json} :
    (Json.array vs).Holds P ↔ ∃ v ∈ vs, v.Holds P := by
  rw [Json.Holds.array_iff]
  simp [hP.array]

theorem holds_record (hP : Foreign P) {fs : List (String × Json)} :
    (Json.record fs).Holds P ↔ ∃ f ∈ fs, f.2.Holds P := by
  have hkey : ∀ key, ¬ P (.string (Json.Text.ofString key)) := hP.text
  rw [Json.record, Json.Holds.object_iff]
  constructor
  · rintro (h | ⟨f, hf, h⟩)
    · exact (hP.object _ h).elim
    · obtain ⟨g, hg, rfl⟩ := List.mem_map.1 hf
      exact ⟨g, hg, h.resolve_left (hkey _)⟩
  · rintro ⟨f, hf, h⟩
    exact .inr ⟨_, List.mem_map_of_mem hf, .inr h⟩

end Foreign

/-- A detail is sent as it is, unless something in it is a number or a broken text. -/
theorem ofDetail_of_foreign (status : Nat) {detail : Json}
    (h : ∀ P, Foreign P → ¬ detail.Holds P) :
    Reply.ofDetail status detail = ⟨status, .json (.record [("detail", detail)]), none⟩ := by
  have hrecord : ∀ P, Foreign P → ¬ (Json.record [("detail", detail)]).Holds P := by
    intro P hP
    rw [hP.holds_record]
    simp [h P hP]
  unfold Reply.ofDetail Reply.ofJson
  rw [(unsendable?_of_finite (hrecord _ foreign_notFinite)).1 (hrecord _ foreign_isBroken)]

end JarRank.Service
