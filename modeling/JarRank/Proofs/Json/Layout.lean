import JarRank.Json.Print
import JarRank.Proofs.Bytes.Hex
import JarRank.Proofs.Number.Characters
import Mathlib.Tactic.SplitIfs

/-!
# How a value is laid out

The printer writes backwards. What it leaves of a value, read forwards, is the same wherever
the value stands, but for the width of the lines. All of it is ASCII.
-/
namespace JarRank.Json

/-- The end of a line and the blanks in front of the next. -/
def lineBreak (depth : Nat) : List Char := '\n' :: List.replicate (2 * depth) ' '

def quoted (t : Text) : List Char := '"' :: (t.flatMap asciiEscape ++ ['"'])

mutual

/-- The text of a value in a document. -/
def layout (depth : Nat) : Json → List Char
  | .null => "null".toList
  | .bool b => if b then "true".toList else "false".toList
  | .integer n => (toString n).toList
  | .number x => x.text.toList
  | .string t => quoted t
  | .array [] => ['[', ']']
  | .array (v :: vs) =>
      '[' :: (lineBreak (depth + 1) ++ (layout (depth + 1) v ++ (layoutItems (depth + 1) vs ++
        (lineBreak depth ++ [']']))))
  | .object [] => ['\x7b', '\x7d']
  | .object ((key, v) :: fs) =>
      '\x7b' :: (lineBreak (depth + 1) ++ (quoted key ++ ':' :: ' ' :: (layout (depth + 1) v ++
        (layoutMembers (depth + 1) fs ++ (lineBreak depth ++ ['\x7d'])))))

/-- The text of the items behind the first. -/
def layoutItems (depth : Nat) : List Json → List Char
  | [] => []
  | v :: vs => ',' :: (lineBreak depth ++ (layout depth v ++ layoutItems depth vs))

/-- The text of the fields behind the first. -/
def layoutMembers (depth : Nat) : List (Text × Json) → List Char
  | [] => []
  | (key, v) :: fs =>
      ',' :: (lineBreak depth ++ (quoted key ++ ':' :: ' ' :: (layout depth v ++ layoutMembers depth fs)))

end

theorem write_eq (cs acc : List Char) : documentStyle.write cs acc = cs.reverse ++ acc := by
  simp [Style.write, documentStyle]

theorem newline_eq (depth : Nat) (acc : List Char) :
    documentStyle.newline depth acc = (lineBreak depth).reverse ++ acc :=
  write_eq _ acc

theorem colon_eq (acc : List Char) : documentStyle.colon acc = ' ' :: ':' :: acc := rfl

theorem string_eq (t : Text) (acc : List Char) :
    documentStyle.string t acc = (quoted t).reverse ++ acc := by
  have hbody (acc : List Char) : t.foldl
      (fun acc p => (documentStyle.escape p).foldl (fun acc a => a :: acc) acc) acc =
        (t.flatMap asciiEscape).reverse ++ acc := by
    induction t generalizing acc with
    | nil => rfl
    | cons p t ih =>
        have hescape : (documentStyle.escape p).foldl (fun acc a => a :: acc) acc =
            (asciiEscape p).reverse ++ acc := by
          rw [List.foldl_flip_cons_eq_append']
          rfl
        rw [List.foldl_cons, hescape, ih, List.flatMap_cons, List.reverse_append, List.append_assoc]
  unfold Style.string
  rw [write_eq, write_eq, hbody]
  simp [quoted]

mutual

theorem value_eq (depth : Nat) (acc : List Char) : ∀ v : Json,
    documentStyle.value depth v acc = (layout depth v).reverse ++ acc
  | .null | .bool _ | .integer _ | .number _ => by
    rw [Style.value, write_eq, layout]
  | .string t => by rw [Style.value, string_eq, layout]
  | .array [] => by rw [Style.value, write_eq, layout]
  | .array (v :: vs) => by
    rw [Style.value, write_eq, newline_eq, items_eq, value_eq, newline_eq, write_eq, layout]
    simp
  | .object [] => by rw [Style.value, write_eq, layout]
  | .object ((key, v) :: fs) => by
    rw [Style.value, write_eq, newline_eq, members_eq, value_eq, colon_eq, string_eq, newline_eq,
      write_eq, layout]
    simp

theorem items_eq (depth : Nat) (acc : List Char) : ∀ vs : List Json,
    documentStyle.items depth vs acc = (layoutItems depth vs).reverse ++ acc
  | [] => rfl
  | v :: vs => by
    rw [Style.items, items_eq, value_eq, newline_eq, write_eq, layoutItems]
    simp

theorem members_eq (depth : Nat) (acc : List Char) : ∀ fs : List (Text × Json),
    documentStyle.members depth fs acc = (layoutMembers depth fs).reverse ++ acc
  | [] => rfl
  | (key, v) :: fs => by
    rw [Style.members, members_eq, value_eq, colon_eq, string_eq, newline_eq, write_eq,
      layoutMembers]
    simp

end

theorem print_eq (v : Json) : documentStyle.print v = layout 0 v := by
  rw [Style.print, value_eq]
  simp

/-- A document is the text of the sorted value, and a line feed. -/
theorem toList_toDocument (v : Json) : v.toDocument.toList = layout 0 v.sorted ++ ['\n'] := by
  rw [toDocument, String.toList_ofList, print_eq]

/-! ### ASCII -/

def IsAscii (cs : List Char) : Prop := ∀ c ∈ cs, c.toNat < 128

instance (cs : List Char) : Decidable (IsAscii cs) :=
  List.decidableBAll (fun c : Char => c.toNat < 128) cs

@[simp] theorem isAscii_nil : IsAscii [] := by simp [IsAscii]

@[simp] theorem isAscii_cons {c : Char} {cs : List Char} :
    IsAscii (c :: cs) ↔ c.toNat < 128 ∧ IsAscii cs := by simp [IsAscii]

@[simp] theorem isAscii_append {cs ds : List Char} :
    IsAscii (cs ++ ds) ↔ IsAscii cs ∧ IsAscii ds := by simp [IsAscii, or_imp, forall_and]

theorem isAscii_of_numeric {s : String} (h : Numeric s) : IsAscii s.toList :=
  fun c hc => (h c hc).toNat_lt

@[simp] theorem isAscii_lineBreak (depth : Nat) : IsAscii (lineBreak depth) := by
  have hblanks : IsAscii (List.replicate (2 * depth) ' ') := by
    intro c hc
    rw [List.eq_of_mem_replicate hc]
    decide
  rw [lineBreak, isAscii_cons]
  exact ⟨by decide, hblanks⟩

theorem isAscii_numericEscape {n : Nat} (hn : n < 0x10000) : IsAscii (numericEscape n) := by
  have hdigit (k : Nat) : (Hex.digit 'a' (k % 16)).toNat < 128 := by
    have hall : ∀ d : Fin 16, (Hex.digit 'a' d).toNat < 128 := by decide
    exact hall ⟨k % 16, Nat.mod_lt k (by omega)⟩
  rw [numericEscape, Hex.toList_lower_four hn]
  simp [hdigit]

theorem isAscii_shortEscape {n : Nat} {cs : List Char} (h : shortEscape? n = some cs) :
    IsAscii cs := by
  unfold shortEscape? at h
  split_ifs at h
  all_goals
    cases h
    decide

/-- A code point that is printed as it is has the character of its number. -/
theorem toNat_ofNat_of_lt {n : Nat} (hn : n < 127) : (Char.ofNat n).toNat = n := by
  have hvalid : n.isValidChar := .inl (by omega)
  rw [Char.ofNat, dif_pos hvalid]
  rfl

theorem isAscii_asciiEscape (p : CodePoint) : IsAscii (asciiEscape p) := by
  have hrange := p.inRange
  unfold asciiEscape
  dsimp only
  cases hshort : shortEscape? p.value with
  | some cs => exact isAscii_shortEscape hshort
  | none =>
      dsimp only
      split_ifs with hself hfour
      · rw [isAscii_cons, toNat_ofNat_of_lt hself.2]
        exact ⟨by omega, isAscii_nil⟩
      · exact isAscii_numericEscape hfour
      · rw [isAscii_append]
        exact ⟨isAscii_numericEscape (by omega), isAscii_numericEscape (by omega)⟩

@[simp] theorem isAscii_quoted (t : Text) : IsAscii (quoted t) := by
  have hbody : IsAscii (t.flatMap asciiEscape) := by
    intro c hc
    obtain ⟨p, -, hc⟩ := List.mem_flatMap.1 hc
    exact isAscii_asciiEscape p c hc
  simp [quoted, hbody]

theorem isAscii_text (x : Binary64) : IsAscii x.text.toList := by
  cases x with
  | finite negative m e => exact isAscii_of_numeric (Binary64.numeric_text rfl)
  | infinite negative => cases negative <;> decide
  | nan => decide

mutual

theorem isAscii_layout (depth : Nat) : ∀ v : Json, IsAscii (layout depth v)
  | .null => by
    rw [layout]
    decide
  | .bool b => by
    rw [layout]
    cases b <;> decide
  | .integer n => by
    rw [layout]
    exact isAscii_of_numeric (numeric_intToString n)
  | .number x => by
    rw [layout]
    exact isAscii_text x
  | .string t => by
    rw [layout]
    exact isAscii_quoted t
  | .array [] => by
    rw [layout]
    decide
  | .array (v :: vs) => by
    have hv := isAscii_layout (depth + 1) v
    have hvs := isAscii_layoutItems (depth + 1) vs
    simp [layout, hv, hvs]
  | .object [] => by
    rw [layout]
    decide
  | .object ((key, v) :: fs) => by
    have hv := isAscii_layout (depth + 1) v
    have hfs := isAscii_layoutMembers (depth + 1) fs
    simp [layout, hv, hfs]

theorem isAscii_layoutItems (depth : Nat) : ∀ vs : List Json, IsAscii (layoutItems depth vs)
  | [] => isAscii_nil
  | v :: vs => by
    have hv := isAscii_layout depth v
    have hvs := isAscii_layoutItems depth vs
    simp [layoutItems, hv, hvs]

theorem isAscii_layoutMembers (depth : Nat) :
    ∀ fs : List (Text × Json), IsAscii (layoutMembers depth fs)
  | [] => isAscii_nil
  | (key, v) :: fs => by
    have hv := isAscii_layout depth v
    have hfs := isAscii_layoutMembers depth fs
    simp [layoutMembers, hv, hfs]

end

/-- Every document is ASCII. -/
theorem isAscii_toDocument (v : Json) : IsAscii v.toDocument.toList := by
  rw [toList_toDocument, isAscii_append]
  exact ⟨isAscii_layout 0 v.sorted, by decide⟩

end JarRank.Json
