import JarRank.Proofs.Json.Escapes
import JarRank.Proofs.Json.Numerals
import JarRank.Proofs.Json.Sorting

/-!
# Values that are read back

Wherever a value stands in a document, reading its text gives the value and ends behind it, as
long as there is room for what is nested in it, its integers have no more digits than may be
read, no string of it has half of a surrogate pair, its other numbers are read from their texts,
and no object of it has one key twice.
-/
namespace JarRank.Json

variable {limit room depth fuel : Nat} {v : Json} {vs : List Json} {fs : List (Text × Json)}
  {key rest : Text} {cs : List Char}

/-- A value that can be read where it has been written: `limit` is how many digits an integer may
have, and `room` how deep the value may be. -/
inductive Legible (limit : Nat) : (room : Nat) → Json → Prop
  | null {room : Nat} : Legible limit room .null
  | bool {room : Nat} (b : Bool) : Legible limit room (.bool b)
  | integer {room : Nat} {n : Int} : digitsOf n ≤ limit → Legible limit room (.integer n)
  | number {room : Nat} {x : Binary64} : x.ReadsBack → Legible limit room (.number x)
  | string {room : Nat} {t : Text} : ¬ t.Broken → Legible limit room (.string t)
  | array {room : Nat} {vs : List Json} : (∀ v ∈ vs, Legible limit room v) →
      Legible limit (room + 1) (.array vs)
  | object {room : Nat} {fs : List (Text × Json)} : DistinctKeys fs → (∀ f ∈ fs, ¬ f.1.Broken) →
      (∀ f ∈ fs, Legible limit room f.2) → Legible limit (room + 1) (.object fs)

/-- Reading the text of a value gives the value, wherever it stands. -/
def IsRead (limit room : Nat) (v : Json) : Prop :=
  ∀ (depth fuel : Nat) (rest : Text), (layout depth v).length ≤ fuel → Delimits rest →
    value limit (fuel + 1) room (Text.ofChars (layout depth v) ++ rest) = .ok (v, rest)

/-! ### What stands around a value -/

theorem skipBlanks_lineBreak (hs : ∀ p ∈ rest.head?, isBlank p.char = false) (depth : Nat) :
    skipBlanks (Text.ofChars (lineBreak depth) ++ rest) = rest := by
  have hblanks : ∀ p ∈ Text.ofChars (lineBreak depth), isBlank p.char = true := by
    intro p hp
    obtain ⟨c, hc, rfl⟩ := List.mem_map.1 hp
    rw [CodePoint.char_ofChar]
    rcases List.mem_cons.1 hc with rfl | hc
    · rfl
    · rw [List.eq_of_mem_replicate hc]
      rfl
  rw [skipBlanks, List.dropWhile_append_of_pos hblanks]
  exact skipBlanks_eq_self hs

theorem skipBlanks_ofChar {c : Char} (hc : isBlank c = false) (rest : Text) :
    skipBlanks (.ofChar c :: rest) = .ofChar c :: rest :=
  skipBlanks_eq_self (by simp [hc])

theorem skipBlanks_lineBreak_ofChar {c : Char} (hc : isBlank c = false) (depth : Nat) (rest : Text) :
    skipBlanks (Text.ofChars (lineBreak depth) ++ .ofChar c :: rest) = .ofChar c :: rest :=
  skipBlanks_lineBreak (by simp [hc]) depth

theorem layoutItems_cons_append (depth : Nat) (v : Json) (vs : List Json) (rest : Text) :
    Text.ofChars (layoutItems depth (v :: vs)) ++ rest =
      .ofChar ',' :: (Text.ofChars (lineBreak depth) ++ (Text.ofChars (layout depth v) ++
        (Text.ofChars (layoutItems depth vs) ++ rest))) := by
  simp [layoutItems]

theorem layoutMembers_cons_append (depth : Nat) (key : Text) (v : Json) (fs : List (Text × Json))
    (rest : Text) :
    Text.ofChars (layoutMembers depth ((key, v) :: fs)) ++ rest =
      .ofChar ',' :: (Text.ofChars (lineBreak depth) ++ (Text.ofChars (quoted key) ++
        .ofChar ':' :: .ofChar ' ' :: (Text.ofChars (layout depth v) ++
          (Text.ofChars (layoutMembers depth fs) ++ rest)))) := by
  simp [layoutMembers]

theorem delimits_items (depth outer : Nat) (vs : List Json) (rest : Text) :
    Delimits (Text.ofChars (layoutItems depth vs) ++ (Text.ofChars (lineBreak outer) ++ rest)) := by
  intro p hp
  cases vs with
  | nil =>
      cases hp
      exact .inr (CodePoint.char_ofChar '\n')
  | cons v vs =>
      cases hp
      exact .inl (CodePoint.char_ofChar ',')

theorem delimits_members (depth outer : Nat) (fs : List (Text × Json)) (rest : Text) :
    Delimits (Text.ofChars (layoutMembers depth fs) ++ (Text.ofChars (lineBreak outer) ++ rest)) := by
  intro p hp
  cases fs with
  | nil =>
      cases hp
      exact .inr (CodePoint.char_ofChar '\n')
  | cons f fs =>
      cases hp
      exact .inl (CodePoint.char_ofChar ',')

/-- A text that begins as a value does, and not as the end of an array. -/
def Opens (cs : List Char) : Prop := ∃ c ds, cs = c :: ds ∧ isBlank c = false ∧ c ≠ ']'

theorem Opens.not_isBlank (h : Opens cs) (rest : Text) :
    ∀ p ∈ (Text.ofChars cs ++ rest).head?, isBlank p.char = false := by
  obtain ⟨c, ds, rfl, hc, -⟩ := h
  intro p hp
  cases hp
  rwa [CodePoint.char_ofChar]

theorem isNumeric_of_begins (h : Begins cs) : ∃ c ds, cs = c :: ds ∧ IsNumeric c := by
  obtain ⟨c, ds, rfl, hc | ⟨rfl, -⟩⟩ := h
  · exact ⟨c, ds, rfl, .inl hc⟩
  · exact ⟨'-', ds, rfl, by decide⟩

theorem opens_of_begins (h : Begins cs) : Opens cs := by
  obtain ⟨c, ds, rfl, hc⟩ := isNumeric_of_begins h
  refine ⟨c, ds, rfl, not_isBlank_of_isNumeric hc, ?_⟩
  rintro rfl
  exact absurd hc (by decide)

theorem opens_layout (h : Legible limit room v) (depth : Nat) : Opens (layout depth v) := by
  cases h with
  | null =>
      rw [layout]
      exact ⟨_, _, rfl, rfl, by decide⟩
  | bool b =>
      rw [layout]
      cases b <;> exact ⟨_, _, rfl, rfl, by decide⟩
  | integer hn =>
      rw [layout]
      exact opens_of_begins (spells_toString hn).begins
  | number hx =>
      rw [layout]
      exact opens_of_begins (spells_text hx limit).begins
  | string =>
      rw [layout]
      exact ⟨_, _, rfl, rfl, by decide⟩
  | @array _ vs =>
      cases vs <;> rw [layout] <;> exact ⟨_, _, rfl, rfl, by decide⟩
  | @object _ fs =>
      cases fs with
      | nil =>
          rw [layout]
          exact ⟨_, _, rfl, rfl, by decide⟩
      | cons f fs =>
          rw [layout]
          exact ⟨_, _, rfl, rfl, by decide⟩

/-! ### Words, numbers and strings -/

theorem value_numeral (h : Spells limit cs v) (hcs : ∀ c ∈ cs, IsNumeric c) (hrest : Delimits rest) :
    value limit (fuel + 1) room (Text.ofChars cs ++ rest) = .ok (v, rest) := by
  have hbegins := h.begins
  rw [value_eq_scalar, scalar_eq_numeral hbegins, h.numeral hcs hrest]
  obtain ⟨c, ds, rfl, hc⟩ := isNumeric_of_begins hbegins
  intro p hp
  cases hp
  rw [CodePoint.char_ofChar]
  refine ⟨?_, ?_, ?_⟩ <;> rintro rfl <;> exact absurd hc (by decide)

theorem quoted_append (t rest : Text) :
    Text.ofChars (quoted t) ++ rest =
      .ofChar '"' :: (Text.ofChars (t.flatMap asciiEscape) ++ .ofChar '"' :: rest) := by
  simp [quoted]

theorem value_quoted {t : Text} (ht : ¬ t.Broken) :
    value limit (fuel + 1) room (Text.ofChars (quoted t) ++ rest) = .ok (.string t, rest) := by
  rw [quoted_append]
  unfold value
  rw [CodePoint.char_ofChar, if_pos rfl, stringRest_flatMap ht]
  rfl

/-- A text in quotes tells by itself where it ends. -/
theorem eq_of_quoted_append_eq {s t : Text} (hs : ¬ s.Broken) (ht : ¬ t.Broken) {cs ds : List Char}
    (h : quoted s ++ cs = quoted t ++ ds) : s = t := by
  have hread : value 0 1 0 (Text.ofChars (quoted s) ++ Text.ofChars cs) =
      .ok (.string s, Text.ofChars cs) := value_quoted hs
  rw [← Text.ofChars_append, h, Text.ofChars_append, value_quoted ht] at hread
  exact (string.inj (Prod.mk.inj (Except.ok.inj hread)).1).symm

/-! ### Arrays and objects -/

@[simp] theorem behind?_ofChar (c d : Char) (rest : Text) :
    behind? c (.ofChar d :: rest) = if d = c then some rest else none := by
  rw [behind?, CodePoint.char_ofChar]

theorem value_array (h : Opens cs) :
    value limit (fuel + 1) (room + 1)
      (.ofChar '[' :: (Text.ofChars (lineBreak depth) ++ (Text.ofChars cs ++ rest))) =
        items limit fuel room (Text.ofChars cs ++ rest) [] := by
  have hskip := skipBlanks_lineBreak (h.not_isBlank rest) depth
  obtain ⟨c, ds, rfl, -, hc⟩ := h
  have hend : behind? ']' (Text.ofChars (c :: ds) ++ rest) = none := by simp [hc]
  unfold value
  rw [CodePoint.char_ofChar, if_neg (by decide), if_pos rfl, hskip, hend]

theorem value_object (rest : Text) :
    value limit (fuel + 1) (room + 1)
      (.ofChar '\x7b' :: (Text.ofChars (lineBreak depth) ++ .ofChar '"' :: rest)) =
        members limit fuel room (.ofChar '"' :: rest) [] := by
  have hend : behind? '\x7d' (.ofChar '"' :: rest) = none := by simp
  unfold value
  rw [CodePoint.char_ofChar, if_neg (by decide), if_neg (by decide), if_pos rfl,
    skipBlanks_lineBreak_ofChar rfl, hend]

theorem items_next {acc : List Json} {s s' : Text} (hv : value limit fuel room s = .ok (v, s'))
    (hs : skipBlanks s' = .ofChar ',' :: rest) :
    items limit (fuel + 1) room s acc = items limit fuel room (skipBlanks rest) (v :: acc) := by
  simp [items, hv, hs]

theorem items_last {acc : List Json} {s s' : Text} (hv : value limit fuel room s = .ok (v, s'))
    (hs : skipBlanks s' = .ofChar ']' :: rest) :
    items limit (fuel + 1) room s acc = .ok (.array (acc.reverse ++ [v]), rest) := by
  simp [items, hv, hs]

/-- The items of an array are read back in order. -/
theorem items_layout {outer : Nat} (hv : IsRead limit room v)
    (hvs : ∀ w ∈ vs, Legible limit room w ∧ IsRead limit room w)
    (hf : (layout depth v).length + (layoutItems depth vs).length ≤ fuel) (acc : List Json) :
    items limit (fuel + 2) room (Text.ofChars (layout depth v) ++ (Text.ofChars (layoutItems depth vs) ++
      (Text.ofChars (lineBreak outer) ++ .ofChar ']' :: rest))) acc =
        .ok (.array (acc.reverse ++ v :: vs), rest) := by
  have htail := hv depth fuel
    (Text.ofChars (layoutItems depth vs) ++ (Text.ofChars (lineBreak outer) ++ .ofChar ']' :: rest))
    (by omega) (delimits_items depth outer vs _)
  induction vs generalizing v fuel acc with
  | nil => exact items_last htail (skipBlanks_lineBreak_ofChar rfl outer rest)
  | cons w vs ih =>
      obtain ⟨⟨hw, hread⟩, hvs⟩ := List.forall_mem_cons.1 hvs
      have hopens := opens_layout hw depth
      have hlength : (layoutItems depth (w :: vs)).length =
          1 + (lineBreak depth).length + ((layout depth w).length + (layoutItems depth vs).length) := by
        simp only [layoutItems, List.length_cons, List.length_append]
        omega
      rw [layoutItems_cons_append] at htail ⊢
      obtain ⟨fuel, rfl⟩ : ∃ k, fuel = k + 1 := ⟨fuel - 1, by omega⟩
      rw [items_next htail (skipBlanks_ofChar rfl _), skipBlanks_lineBreak (hopens.not_isBlank _),
        ih hread hvs (by omega) _
          (hread depth fuel _ (by omega) (delimits_items depth outer vs _))]
      simp

/-- A field with a new key is put behind the others. -/
theorem putField_of_new {acc : List (Text × Json)} (h : ∀ f ∈ acc, f.1 ≠ key) :
    putField key v acc = (key, v) :: acc := by
  have hnone : (acc.any fun f => f.1 == key) = false := by
    rw [List.any_eq_false]
    exact fun f hf => by simp [h f hf]
  rw [putField, hnone]
  rfl

theorem members_next {acc : List (Text × Json)} {s s' : Text} (hkey : ¬ key.Broken)
    (hnew : ∀ f ∈ acc, f.1 ≠ key) (hs : ∀ p ∈ s.head?, isBlank p.char = false)
    (hv : value limit fuel room s = .ok (v, s')) (hs' : skipBlanks s' = .ofChar ',' :: rest) :
    members limit (fuel + 1) room (Text.ofChars (quoted key) ++ .ofChar ':' :: .ofChar ' ' :: s) acc =
      members limit fuel room (skipBlanks rest) ((key, v) :: acc) := by
  have hcolon : skipBlanks (.ofChar ':' :: .ofChar ' ' :: s) = .ofChar ':' :: .ofChar ' ' :: s :=
    skipBlanks_ofChar rfl _
  have hblank : skipBlanks (.ofChar ' ' :: s) = s := skipBlanks_eq_self hs
  rw [quoted_append]
  simp [members, stringRest_flatMap hkey, hcolon, hblank, hv, hs', putField_of_new hnew]

theorem members_last {acc : List (Text × Json)} {s s' : Text} (hkey : ¬ key.Broken)
    (hnew : ∀ f ∈ acc, f.1 ≠ key) (hs : ∀ p ∈ s.head?, isBlank p.char = false)
    (hv : value limit fuel room s = .ok (v, s')) (hs' : skipBlanks s' = .ofChar '\x7d' :: rest) :
    members limit (fuel + 1) room (Text.ofChars (quoted key) ++ .ofChar ':' :: .ofChar ' ' :: s) acc =
      .ok (.object (acc.reverse ++ [(key, v)]), rest) := by
  have hcolon : skipBlanks (.ofChar ':' :: .ofChar ' ' :: s) = .ofChar ':' :: .ofChar ' ' :: s :=
    skipBlanks_ofChar rfl _
  have hblank : skipBlanks (.ofChar ' ' :: s) = s := skipBlanks_eq_self hs
  rw [quoted_append]
  simp [members, stringRest_flatMap hkey, hcolon, hblank, hv, hs', putField_of_new hnew]

/-- The fields of an object are read back in order. -/
theorem members_layout {outer : Nat} (hkey : ¬ key.Broken) (hv : Legible limit room v)
    (hread : IsRead limit room v)
    (hfs : ∀ f ∈ fs, ¬ f.1.Broken ∧ Legible limit room f.2 ∧ IsRead limit room f.2)
    (hf : (layout depth v).length + (layoutMembers depth fs).length ≤ fuel)
    (acc : List (Text × Json)) (hdistinct : DistinctKeys (acc.reverse ++ (key, v) :: fs)) :
    members limit (fuel + 2) room (Text.ofChars (quoted key) ++ .ofChar ':' :: .ofChar ' ' ::
      (Text.ofChars (layout depth v) ++ (Text.ofChars (layoutMembers depth fs) ++
        (Text.ofChars (lineBreak outer) ++ .ofChar '\x7d' :: rest)))) acc =
          .ok (.object (acc.reverse ++ (key, v) :: fs), rest) := by
  have hopens := opens_layout hv depth
  have hnew : ∀ f ∈ acc, f.1 ≠ key := by
    intro f hf
    rw [DistinctKeys, List.map_append, List.nodup_append] at hdistinct
    exact hdistinct.2.2 f.1 (List.mem_map_of_mem (List.mem_reverse.2 hf)) key List.mem_cons_self
  have htail := hread depth fuel
    (Text.ofChars (layoutMembers depth fs) ++ (Text.ofChars (lineBreak outer) ++ .ofChar '\x7d' :: rest))
    (by omega) (delimits_members depth outer fs _)
  induction fs generalizing key v fuel acc with
  | nil =>
      exact members_last hkey hnew (hopens.not_isBlank _) htail
        (skipBlanks_lineBreak_ofChar rfl outer rest)
  | cons f fs ih =>
      obtain ⟨next, w⟩ := f
      obtain ⟨⟨hnext, hw, hread⟩, hfs⟩ := List.forall_mem_cons.1 hfs
      dsimp only at hnext hw hread
      have hlength : (layoutMembers depth ((next, w) :: fs)).length = 1 + (lineBreak depth).length +
          ((quoted next).length + 2 + ((layout depth w).length + (layoutMembers depth fs).length)) := by
        simp only [layoutMembers, List.length_cons, List.length_append]
        omega
      have hquote : skipBlanks (Text.ofChars (lineBreak depth) ++ (Text.ofChars (quoted next) ++
          .ofChar ':' :: .ofChar ' ' :: (Text.ofChars (layout depth w) ++
            (Text.ofChars (layoutMembers depth fs) ++
              (Text.ofChars (lineBreak outer) ++ .ofChar '\x7d' :: rest))))) =
          Text.ofChars (quoted next) ++ .ofChar ':' :: .ofChar ' ' :: (Text.ofChars (layout depth w) ++
            (Text.ofChars (layoutMembers depth fs) ++
              (Text.ofChars (lineBreak outer) ++ .ofChar '\x7d' :: rest))) := by
        rw [quoted_append]
        exact skipBlanks_lineBreak_ofChar rfl depth _
      have hshift : ((key, v) :: acc).reverse ++ (next, w) :: fs =
          acc.reverse ++ (key, v) :: (next, w) :: fs := by simp
      have hdistinct' : DistinctKeys (((key, v) :: acc).reverse ++ (next, w) :: fs) := by
        rwa [hshift]
      have hnew' : ∀ f ∈ (key, v) :: acc, f.1 ≠ next := by
        intro f hf
        rw [DistinctKeys, List.map_append, List.nodup_append] at hdistinct'
        exact hdistinct'.2.2 f.1 (List.mem_map_of_mem (List.mem_reverse.2 hf)) next List.mem_cons_self
      rw [layoutMembers_cons_append] at htail ⊢
      obtain ⟨fuel, rfl⟩ : ∃ k, fuel = k + 1 := ⟨fuel - 1, by omega⟩
      rw [members_next hkey hnew (hopens.not_isBlank _) htail (skipBlanks_ofChar rfl _), hquote,
        ih hnext hw hread hfs (by omega) _ hdistinct' (opens_layout hw depth) hnew'
          (hread depth fuel _ (by omega) (delimits_members depth outer fs _)), hshift]

/-- Wherever a legible value has been written, it is read back. -/
theorem isRead_of_legible (h : Legible limit room v) : IsRead limit room v := by
  induction h with
  | null =>
      intro depth fuel rest _ _
      rfl
  | bool b =>
      intro depth fuel rest _ _
      cases b <;> rfl
  | integer hn =>
      intro depth fuel rest _ hrest
      rw [layout]
      exact value_numeral (spells_toString hn) (numeric_intToString _) hrest
  | number hx =>
      intro depth fuel rest _ hrest
      rw [layout]
      exact value_numeral (spells_text hx limit) (Binary64.numeric_text hx.finite) hrest
  | string ht =>
      intro depth fuel rest _ _
      rw [layout]
      exact value_quoted ht
  | @array room vs hvs ih =>
      intro depth fuel rest hf _
      cases vs with
      | nil => rfl
      | cons v vs =>
          obtain ⟨hv, hvs⟩ := List.forall_mem_cons.1 hvs
          obtain ⟨hread, ih⟩ := List.forall_mem_cons.1 ih
          have hopens := opens_layout hv (depth + 1)
          rw [layout] at hf ⊢
          simp only [lineBreak, List.length_cons, List.length_append] at hf
          obtain ⟨fuel, rfl⟩ : ∃ k, fuel = k + 2 := ⟨fuel - 2, by omega⟩
          simp only [Text.ofChars_cons, Text.ofChars_append, Text.ofChars_nil, List.cons_append,
            List.append_assoc, List.nil_append]
          rw [value_array hopens, items_layout hread (fun w hw => ⟨hvs w hw, ih w hw⟩) (by omega)]
          rfl
  | @object room fs hdistinct hkeys hvs ih =>
      intro depth fuel rest hf _
      cases fs with
      | nil => rfl
      | cons f fs =>
          obtain ⟨key, v⟩ := f
          obtain ⟨hkey, hkeys⟩ := List.forall_mem_cons.1 hkeys
          obtain ⟨hv, hvs⟩ := List.forall_mem_cons.1 hvs
          obtain ⟨hread, ih⟩ := List.forall_mem_cons.1 ih
          dsimp only at hkey hv hread
          rw [layout] at hf ⊢
          simp only [lineBreak, List.length_cons, List.length_append] at hf
          obtain ⟨fuel, rfl⟩ : ∃ k, fuel = k + 2 := ⟨fuel - 2, by omega⟩
          simp only [Text.ofChars_cons, Text.ofChars_append, Text.ofChars_nil, List.cons_append,
            List.append_assoc, List.nil_append]
          have hlength :
              (layout (depth + 1) v).length + (layoutMembers (depth + 1) fs).length ≤ fuel := by
            omega
          have hmembers := @members_layout limit room (depth + 1) fuel v fs key rest depth hkey hv hread
            (fun w hw => ⟨hkeys w hw, hvs w hw, ih w hw⟩) hlength [] hdistinct
          rw [quoted_append] at hmembers ⊢
          rw [value_object, hmembers]
          rfl

/-- The text of a legible value is a document of that value alone. -/
theorem parseWithin_layout (h : Legible limit room v) :
    parseWithin limit room (Text.ofChars (layout 0 v ++ ['\n'])) = .ok v := by
  have hopens := opens_layout h 0
  have hfuel : (layout 0 v).length ≤ 2 * (Text.ofChars (layout 0 v ++ ['\n'])).length + 1 := by
    rw [Text.length_ofChars, List.length_append]
    omega
  have hread := isRead_of_legible h 0 _ (Text.ofChars ['\n']) hfuel (by simp [Delimits])
  rw [Text.ofChars_append] at hread ⊢
  rw [parseWithin, skipBlanks_eq_self (hopens.not_isBlank _), hread]
  rfl

theorem Legible.sorted (h : Legible limit room v) : Legible limit room v.sorted := by
  induction h with
  | null => exact .null
  | bool b => exact .bool b
  | integer hn => exact .integer hn
  | number hx => exact .number hx
  | string ht => exact .string ht
  | array _ ih =>
      rw [sorted_array]
      exact .array (by simpa using ih)
  | @object room fs hdistinct hkeys _ ih =>
      have hmem : ∀ f ∈ sortedFields fs, ∃ g ∈ fs, sortedField g = f := fun f hf =>
        List.mem_map.1 ((sortedFields_perm fs).mem_iff.1 hf)
      rw [sorted_object]
      refine .object hdistinct.sortedFields (fun f hf => ?_) fun f hf => ?_
      · obtain ⟨g, hg, rfl⟩ := hmem f hf
        exact hkeys g hg
      · obtain ⟨g, hg, rfl⟩ := hmem f hf
        exact ih g hg

/-- The document of a legible value is read as the value with its fields sorted. -/
theorem parseWithin_toDocument (h : Legible limit room v) :
    parseWithin limit room (.ofString v.toDocument) = .ok v.sorted := by
  have hdocument : Text.ofString v.toDocument = Text.ofChars (layout 0 v.sorted ++ ['\n']) :=
    congrArg Text.ofChars (toList_toDocument v)
  rw [hdocument]
  exact parseWithin_layout h.sorted

end JarRank.Json
