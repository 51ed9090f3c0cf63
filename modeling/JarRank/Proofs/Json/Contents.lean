import JarRank.Json.Print

/-!
# What stands in a value

A value holds itself, its items and fields and what these hold, and the keys of its
fields. The printed response to a value has half of a surrogate pair among its code
points exactly if the value holds a string with one: what is put around the strings
is ASCII, and so is every escape, and all other code points are printed as they are.
-/
namespace JarRank.Json

/-- A value has a property, or something in it has. Keys count as strings. -/
inductive Holds (P : Json → Prop) : Json → Prop
  | self {v : Json} : P v → Holds P v
  | item {v : Json} {vs : List Json} : v ∈ vs → Holds P v → Holds P (.array vs)
  | key {f : Text × Json} {fs : List (Text × Json)} : f ∈ fs → P (.string f.1) → Holds P (.object fs)
  | field {f : Text × Json} {fs : List (Text × Json)} : f ∈ fs → Holds P f.2 → Holds P (.object fs)

namespace Holds

variable {P : Json → Prop}

theorem iff_self {v : Json} (ha : ∀ vs, v ≠ .array vs) (ho : ∀ fs, v ≠ .object fs) :
    Holds P v ↔ P v := by
  constructor
  · intro h
    cases h with
    | self h => exact h
    | item => exact (ha _ rfl).elim
    | key => exact (ho _ rfl).elim
    | field => exact (ho _ rfl).elim
  · exact .self

theorem array_iff {vs : List Json} :
    Holds P (.array vs) ↔ P (.array vs) ∨ ∃ v ∈ vs, Holds P v := by
  constructor
  · intro h
    cases h with
    | self h => exact .inl h
    | item hv h => exact .inr ⟨_, hv, h⟩
  · rintro (h | ⟨v, hv, h⟩)
    · exact .self h
    · exact .item hv h

theorem object_iff {fs : List (Text × Json)} :
    Holds P (.object fs) ↔ P (.object fs) ∨ ∃ f ∈ fs, P (.string f.1) ∨ Holds P f.2 := by
  constructor
  · intro h
    cases h with
    | self h => exact .inl h
    | key hf h => exact .inr ⟨_, hf, .inl h⟩
    | field hf h => exact .inr ⟨_, hf, .inr h⟩
  · rintro (h | ⟨f, hf, h | h⟩)
    · exact .self h
    · exact .key hf h
    · exact .field hf h

end Holds

/-- Half of a surrogate pair is among the code points. -/
def Text.Broken (t : Text) : Prop := ∃ p ∈ t, p.isSurrogate = true

namespace Text

@[simp] theorem broken_nil : ¬ Text.Broken [] := by simp [Broken]

@[simp] theorem broken_cons {p : CodePoint} {t : Text} :
    Text.Broken (p :: t) ↔ p.isSurrogate = true ∨ Broken t := by simp [Broken]

@[simp] theorem broken_append {t u : Text} : Broken (t ++ u) ↔ t.Broken ∨ u.Broken := by
  simp [Broken, or_and_right, exists_or]

@[simp] theorem broken_reverse {t : Text} : Broken t.reverse ↔ t.Broken := by simp [Broken]

@[simp] theorem not_broken_map_ofChar (cs : List Char) : ¬ Broken (cs.map CodePoint.ofChar) := by
  simp [Broken]

end Text

/-- A string with half of a surrogate pair. -/
def IsBroken (v : Json) : Prop := ∃ t, v = .string t ∧ t.Broken

@[simp] theorem isBroken_string {t : Text} : IsBroken (.string t) ↔ t.Broken := by simp [IsBroken]

@[simp] theorem not_isBroken_array {vs : List Json} : ¬ IsBroken (.array vs) := by simp [IsBroken]

@[simp] theorem not_isBroken_object {fs : List (Text × Json)} : ¬ IsBroken (.object fs) := by
  simp [IsBroken]

theorem lt_of_shortEscape? {n : Nat} {cs : List Char} (h : shortEscape? n = some cs) : n < 128 := by
  grind [shortEscape?]

/-- An escape has half of a pair only where that is the code point itself. -/
theorem broken_plainEscape {p : CodePoint} : (plainEscape p).Broken ↔ p.isSurrogate = true := by
  have hsmall : p.value < 128 → p.isSurrogate = false := fun h => by
    simp only [CodePoint.isSurrogate, Bool.and_eq_false_iff, decide_eq_false_iff_not]
    omega
  unfold plainEscape
  split
  · next cs hcs => simp [hsmall (lt_of_shortEscape? hcs)]
  · split
    · next h => simp [hsmall (by omega)]
    · simp

section Response

variable {acc : Text}

theorem broken_write {cs : List Char} :
    Text.Broken (responseStyle.write cs acc) ↔ acc.Broken := by
  unfold Style.write
  induction cs generalizing acc with
  | nil => rfl
  | cons c cs ih =>
    rw [List.foldl_cons, ih]
    simp [responseStyle]

theorem broken_string {t : Text} :
    Text.Broken (responseStyle.string t acc) ↔ acc.Broken ∨ t.Broken := by
  have hbody (acc : Text) : Text.Broken (t.foldl
      (fun acc p => (responseStyle.escape p).foldl (fun acc a => a :: acc) acc) acc) ↔
      acc.Broken ∨ t.Broken := by
    induction t generalizing acc with
    | nil => simp
    | cons p t ih =>
      have hescape : Text.Broken (responseStyle.escape p) ↔ p.isSurrogate = true := broken_plainEscape
      rw [List.foldl_cons, ih, List.foldl_flip_cons_eq_append', Text.broken_append,
        Text.broken_reverse, hescape, Text.broken_cons]
      grind
  unfold Style.string
  rw [broken_write, hbody, broken_write]

/-- What stands before an item or a field has no surrogates. -/
theorem broken_separator {depth : Nat} {cs : List Char} :
    Text.Broken (responseStyle.newline depth (responseStyle.write cs acc)) ↔ acc.Broken :=
  broken_write

theorem broken_key {depth : Nat} {cs : List Char} {key : Text} :
    Text.Broken (responseStyle.colon
      (responseStyle.string key (responseStyle.newline depth (responseStyle.write cs acc)))) ↔
      acc.Broken ∨ key.Broken := by
  unfold Style.colon
  rw [show responseStyle.indent = none from rfl, broken_write, broken_string, broken_separator]

/-- A value that is one word. -/
theorem broken_word {cs : List Char} {v : Json} (ha : ∀ vs, v ≠ .array vs)
    (ho : ∀ fs, v ≠ .object fs) (hs : ∀ t, v ≠ .string t) :
    Text.Broken (responseStyle.write cs acc) ↔ acc.Broken ∨ Holds IsBroken v := by
  have hv : ¬ IsBroken v := fun ⟨t, ht, _⟩ => hs t ht
  rw [broken_write, Holds.iff_self ha ho]
  simp [hv]

mutual

/-- Printing a value adds half of a pair exactly if the value holds one. -/
theorem broken_value (depth : Nat) (acc : Text) : ∀ v : Json,
    Text.Broken (responseStyle.value depth v acc) ↔ acc.Broken ∨ Holds IsBroken v
  | .null => broken_word nofun nofun nofun
  | .bool _ => broken_word nofun nofun nofun
  | .integer _ => broken_word nofun nofun nofun
  | .number _ => broken_word nofun nofun nofun
  | .string t => by
    rw [Style.value, broken_string, Holds.iff_self (by simp) (by simp), isBroken_string]
  | .array [] => by
    rw [Style.value, broken_write, Holds.array_iff]
    simp
  | .array (v :: vs) => by
    rw [Style.value, broken_write]
    show Text.Broken (responseStyle.items _ vs _) ↔ _
    rw [broken_items, broken_value, broken_separator, Holds.array_iff]
    simp [or_assoc]
  | .object [] => by
    rw [Style.value, broken_write, Holds.object_iff]
    simp
  | .object ((key, v) :: fs) => by
    rw [Style.value, broken_write]
    show Text.Broken (responseStyle.members _ fs _) ↔ _
    rw [broken_members, broken_value, broken_key, Holds.object_iff]
    simp [or_assoc]

theorem broken_items (depth : Nat) (acc : Text) : ∀ vs : List Json,
    Text.Broken (responseStyle.items depth vs acc) ↔ acc.Broken ∨ ∃ v ∈ vs, Holds IsBroken v
  | [] => by simp [Style.items]
  | v :: vs => by
    rw [Style.items, broken_items depth _ vs, broken_value depth _ v, broken_separator]
    simp [or_assoc]

theorem broken_members (depth : Nat) (acc : Text) : ∀ fs : List (Text × Json),
    Text.Broken (responseStyle.members depth fs acc) ↔
      acc.Broken ∨ ∃ f ∈ fs, f.1.Broken ∨ Holds IsBroken f.2
  | [] => by simp [Style.members]
  | (key, v) :: fs => by
    rw [Style.members, broken_members depth _ fs, broken_value depth _ v, broken_key]
    simp [or_assoc]

end

/-- The response to a value has half of a pair in it exactly if the value holds one. -/
theorem broken_print {v : Json} : Text.Broken (responseStyle.print v) ↔ Holds IsBroken v := by
  rw [Style.print, Text.broken_reverse, broken_value]
  simp

end Response
end JarRank.Json
