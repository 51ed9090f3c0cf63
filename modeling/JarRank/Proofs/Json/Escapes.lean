import JarRank.Proofs.Json.Contents
import JarRank.Proofs.Json.Layout
import JarRank.Proofs.Json.Numerals

/-!
# Strings that are read back

In a document every code point of a string is one of four things: an escape of two
characters, itself, an escape of four digits, or two of these, one for each half of a
surrogate pair. Read in a string, each of them gives the code point. The second half of a
pair is put together with the first, and no code point that is no surrogate can be taken for
either half, so it does not matter what stands before it.
-/
namespace JarRank.Json

variable {opening u rest acc : Text} {cs : List Char} {p : CodePoint} {n left value : Nat}

theorem stringRest_digit (hn : n < 16) (hleft : 1 < left) :
    stringRest opening (.digits u left value) (.ofChar (Hex.digit 'a' n) :: rest) acc =
      stringRest opening (.digits u (left - 1) (value * 16 + n)) rest acc := by
  rw [stringRest, CodePoint.char_ofChar, Hex.value?_digit hn]
  dsimp only
  rw [if_pos hleft]

theorem stringRest_lastDigit (hn : n < 16) (hvalue : value * 16 + n < 0x10000) (hrest : rest ≠ []) :
    stringRest opening (.digits u 1 value) (.ofChar (Hex.digit 'a' n) :: rest) acc =
      stringRest opening .plain rest (pushEscaped (value * 16 + n) hvalue acc) := by
  rw [stringRest, CodePoint.char_ofChar, Hex.value?_digit hn]
  dsimp only
  rw [if_neg (Nat.lt_irrefl 1), dif_pos ⟨hvalue, hrest⟩]

/-- An escape of four digits gives the code point of its number. -/
theorem stringRest_numericEscape (hn : n < 0x10000) (hrest : rest ≠ []) :
    stringRest opening .plain (Text.ofChars (numericEscape n) ++ rest) acc =
      stringRest opening .plain rest (pushEscaped n hn acc) := by
  have hmod (k : Nat) : k % 16 < 16 := Nat.mod_lt k (by omega)
  have hvalue : (((0 * 16 + n / 16 / 16 / 16 % 16) * 16 + n / 16 / 16 % 16) * 16 +
      n / 16 % 16) * 16 + n % 16 = n := by omega
  rw [numericEscape, Hex.toList_lower_four hn]
  simp only [Text.ofChars_cons, Text.ofChars_nil, List.cons_append, List.nil_append]
  rw [stringRest, CodePoint.char_ofChar, if_neg (by decide), if_pos rfl, stringRest,
    CodePoint.char_ofChar, if_pos rfl,
    stringRest_digit (hmod _) (by omega), stringRest_digit (hmod _) (by omega),
    stringRest_digit (hmod _) (by omega), stringRest_lastDigit (hmod _) (by omega) hrest]
  simp only [hvalue]

theorem stringRest_shortEscape (h : shortEscape? p.value = some cs) :
    stringRest opening .plain (Text.ofChars cs ++ rest) acc =
      stringRest opening .plain rest (p :: acc) := by
  obtain ⟨value, inRange⟩ := p
  dsimp only [shortEscape?] at h
  split_ifs at h
  all_goals
    subst value
    cases h
    rfl

/-- A character that is printed as it is. -/
theorem stringRest_self (hlow : 32 ≤ p.value) (hhigh : p.value < 127)
    (hshort : shortEscape? p.value = none) :
    stringRest opening .plain (.ofChar (Char.ofNat p.value) :: rest) acc =
      stringRest opening .plain rest (p :: acc) := by
  have hvalue := toNat_ofNat_of_lt hhigh
  have hp : CodePoint.ofChar (Char.ofNat p.value) = p := by
    cases p
    rw [CodePoint.mk.injEq]
    exact hvalue
  have hquote : Char.ofNat p.value ≠ '"' := by
    intro h
    rw [h] at hp
    subst hp
    cases hshort
  have hbackslash : Char.ofNat p.value ≠ '\\' := by
    intro h
    rw [h] at hp
    subst hp
    cases hshort
  have hblank : ¬ Char.ofNat p.value < ' ' := by
    intro h
    have hlt : (Char.ofNat p.value).toNat < 32 := h
    omega
  rw [stringRest, CodePoint.char_ofChar, if_neg hquote, if_neg hbackslash, if_neg hblank, hp]

theorem pushEscaped_of_not_low (hn : n < 0x10000) (hn' : n < 0x110000)
    (hlow : ¬ (0xDC00 ≤ n ∧ n < 0xE000)) (acc : Text) :
    pushEscaped n hn acc = ⟨n, hn'⟩ :: acc := by
  cases acc with
  | nil => rfl
  | cons p acc => simp [pushEscaped, hlow]

/-- The halves of a pair are put together. -/
theorem pushEscaped_pair (hn : 0x10000 ≤ n) (hn' : n < 0x110000)
    (hhigh : 0xD800 + (n - 0x10000) / 0x400 < 0x10000)
    (hlow : 0xDC00 + (n - 0x10000) % 0x400 < 0x10000) :
    pushEscaped (0xDC00 + (n - 0x10000) % 0x400) hlow
      (pushEscaped (0xD800 + (n - 0x10000) / 0x400) hhigh acc) = ⟨n, hn'⟩ :: acc := by
  have hvalue : 0x10000 + (0xD800 + (n - 0x10000) / 0x400 - 0xD800) * 0x400 +
      (0xDC00 + (n - 0x10000) % 0x400 - 0xDC00) = n := by omega
  rw [pushEscaped_of_not_low hhigh (by omega) (by omega), pushEscaped, dif_pos (by dsimp only; omega)]
  simp only [hvalue]

theorem numericEscape_append_ne_nil : Text.ofChars (numericEscape n) ++ rest ≠ [] :=
  List.cons_ne_nil _ _

/-- A pair of escapes gives the code point that it is made from. -/
theorem stringRest_pairEscape (hn : 0x10000 ≤ n) (hn' : n < 0x110000) (hrest : rest ≠ []) :
    stringRest opening .plain (Text.ofChars (numericEscape (0xD800 + (n - 0x10000) / 0x400) ++
      numericEscape (0xDC00 + (n - 0x10000) % 0x400)) ++ rest) acc =
        stringRest opening .plain rest (⟨n, hn'⟩ :: acc) := by
  have hhigh : 0xD800 + (n - 0x10000) / 0x400 < 0x10000 := by omega
  have hlow : 0xDC00 + (n - 0x10000) % 0x400 < 0x10000 := by omega
  rw [Text.ofChars_append, List.append_assoc, stringRest_numericEscape hhigh numericEscape_append_ne_nil,
    stringRest_numericEscape hlow hrest, pushEscaped_pair hn hn']

/-- Whatever a code point that is no surrogate is printed as, reading it gives the code point. -/
theorem stringRest_asciiEscape (hp : p.isSurrogate = false) (hrest : rest ≠ []) :
    stringRest opening .plain (Text.ofChars (asciiEscape p) ++ rest) acc =
      stringRest opening .plain rest (p :: acc) := by
  have hplain : ¬ (0xDC00 ≤ p.value ∧ p.value < 0xE000) := by
    intro h
    have hsurrogate : p.isSurrogate = true := by
      rw [CodePoint.isSurrogate, Bool.and_eq_true, decide_eq_true_eq, decide_eq_true_eq]
      omega
    rw [hp] at hsurrogate
    cases hsurrogate
  unfold asciiEscape
  dsimp only
  cases hshort : shortEscape? p.value with
  | some cs => exact stringRest_shortEscape hshort
  | none =>
      dsimp only
      split_ifs with hself hfour
      · exact stringRest_self hself.1 hself.2 hshort
      · rw [stringRest_numericEscape hfour hrest, pushEscaped_of_not_low hfour p.inRange hplain]
      · exact stringRest_pairEscape (Nat.le_of_not_lt hfour) p.inRange hrest

/-- A string is read back up to the quote behind it. -/
theorem stringRest_flatMap {t : Text} (ht : ¬ t.Broken) :
    stringRest opening .plain (Text.ofChars (t.flatMap asciiEscape) ++ .ofChar '"' :: rest) acc =
      .ok (acc.reverse ++ t, rest) := by
  induction t generalizing acc with
  | nil =>
      rw [List.flatMap_nil, Text.ofChars_nil, List.nil_append, List.append_nil, stringRest,
        CodePoint.char_ofChar, if_pos rfl]
  | cons p t ih =>
      rw [Text.broken_cons, not_or, Bool.not_eq_true] at ht
      obtain ⟨hp, ht⟩ := ht
      rw [List.flatMap_cons, Text.ofChars_append, List.append_assoc,
        stringRest_asciiEscape hp (by simp), ih ht,
        List.reverse_cons, List.append_assoc, List.singleton_append]

end JarRank.Json
