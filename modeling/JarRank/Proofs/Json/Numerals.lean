import JarRank.Json.Parse
import JarRank.Proofs.Number.Characters
import Mathlib.Data.List.Infix
import Mathlib.Data.List.TakeWhile
import Mathlib.Tactic.SplitIfs

/-!
# Numbers that are read back

A number is read from the characters that may stand in one, so that it ends where a comma or the
end of a line stands. An integer is read back from its text wherever as many digits may be read.
Of a binary64 value it is supposed that its text by itself is read as the value.
-/
namespace JarRank
namespace Json

/-- Characters as code points. -/
def Text.ofChars (cs : List Char) : Text := cs.map CodePoint.ofChar

namespace Text

@[simp] theorem ofChars_nil : ofChars [] = [] := rfl

@[simp] theorem ofChars_cons (c : Char) (cs : List Char) :
    ofChars (c :: cs) = CodePoint.ofChar c :: ofChars cs := rfl

@[simp] theorem ofChars_append (cs ds : List Char) : ofChars (cs ++ ds) = ofChars cs ++ ofChars ds :=
  List.map_append

@[simp] theorem length_ofChars (cs : List Char) : (ofChars cs).length = cs.length := List.length_map ..

end Text

variable {limit limit' fuel room : Nat} {start start' rest : Text} {s s' cs whole : List Char}
  {negative : Bool} {v : Json} {x : Binary64}

/-- What may stand behind a number in a document. -/
def Delimits (rest : Text) : Prop := ∀ p ∈ rest.head?, p.char = ',' ∨ p.char = '\n'

theorem Delimits.takeWhile_eq (h : Delimits rest) : rest.takeWhile (fun p => isNumeric p.char) = [] := by
  cases rest with
  | nil => rfl
  | cons p rest =>
      refine List.takeWhile_cons_of_neg ?_
      rcases h p rfl with hp | hp <;> rw [hp] <;> decide

theorem isNumeric_of_numeric {c : Char} (h : IsNumeric c) : isNumeric c = true := by
  rcases h with h | rfl | rfl | rfl | rfl
  · have hrange := Char.isDigit_iff_toNat.1 h
    have hdigit : isDigit c = true := by
      rw [isDigit, Bool.and_eq_true, decide_eq_true_eq, decide_eq_true_eq]
      exact hrange
    rw [isNumeric, hdigit]
    rfl
  all_goals rfl

/-- The run that may be a number ends before a delimiter, if it has not ended earlier. -/
theorem numericRun_append (hcs : ∀ c ∈ cs, IsNumeric c) (hr : Delimits rest) :
    numericRun (Text.ofChars cs ++ rest) = cs := by
  have hall : ∀ p ∈ Text.ofChars cs, isNumeric p.char = true := by
    intro p hp
    obtain ⟨c, hc, rfl⟩ := List.mem_map.1 hp
    rw [CodePoint.char_ofChar]
    exact isNumeric_of_numeric (hcs c hc)
  rw [numericRun, List.takeWhile_append_of_pos hall, hr.takeWhile_eq, List.append_nil, Text.ofChars,
    List.map_map]
  simp [Function.comp_def]

/-! ### The parts of a number -/

theorem fraction_of_ne {c : Char} (hc : c ≠ '.') (s : List Char) : fraction (c :: s) = ([], c :: s) := by
  unfold fraction
  split
  · next h => exact (hc (List.cons.inj h).1).elim
  · rfl

theorem exponent_of_ne {c : Char} (hc : ¬ (c = 'e' ∨ c = 'E')) (s : List Char) :
    exponent (c :: s) = (none, c :: s) := by
  simp only [exponent, if_neg hc]

theorem splitMinus_of_ne {c : Char} (hminus : c ≠ '-') (s : List Char) :
    Numeral.splitMinus (c :: s) = (false, c :: s) := by
  unfold Numeral.splitMinus
  split
  · next h => exact (hminus (List.cons.inj h).1).elim
  · rfl

/-! ### Numbers before a delimiter -/

/-- Where a number begins is told in faults only. -/
theorem unsigned_start (h : unsigned limit start negative s = .ok (v, s')) :
    unsigned limit start' negative s = .ok (v, s') := by
  unfold unsigned at h ⊢
  cases hw : wholePart s with
  | none =>
      rw [hw] at h
      cases h
  | some split =>
      rw [hw] at h
      exact h

/-- A number that is no integer may have any number of digits. -/
theorem unsigned_of_number (h : unsigned limit start negative s = .ok (.number x, s')) :
    unsigned limit' start negative s = .ok (.number x, s') := by
  unfold unsigned at h ⊢
  cases hw : wholePart s with
  | none =>
      rw [hw] at h
      cases h
  | some split =>
      rw [hw] at h
      dsimp only at h ⊢
      by_cases hinteger : (fraction split.2).1.isEmpty ∧ (exponent (fraction split.2).2).1 = none
      · rw [if_pos hinteger] at h
        split_ifs at h <;> cases h
      · rw [if_neg hinteger] at h ⊢
        exact h

/-- A number begins with a digit, behind a minus if there is one. -/
def Begins (s : List Char) : Prop :=
  ∃ c cs, s = c :: cs ∧ (isDigit c = true ∨ c = '-' ∧ ∃ d ds, cs = d :: ds ∧ isDigit d = true)

theorem exists_digit_of_unsigned (h : unsigned limit start negative s = .ok (v, s')) :
    ∃ c cs, s = c :: cs ∧ isDigit c = true := by
  unfold unsigned at h
  cases s with
  | nil => cases h
  | cons c cs =>
      refine ⟨c, cs, rfl, ?_⟩
      by_contra hc
      have hzero : c ≠ '0' := by
        rintro rfl
        exact hc rfl
      simp [wholePart, hzero, hc] at h

/-- All of some characters are the text of a number. -/
def Spells (limit : Nat) (cs : List Char) (v : Json) : Prop :=
  unsigned limit [] (Numeral.splitMinus cs).1 (Numeral.splitMinus cs).2 = .ok (v, [])

theorem Spells.begins (h : Spells limit cs v) : Begins cs := by
  unfold Spells at h
  cases cs with
  | nil => cases h
  | cons c cs =>
      by_cases hc : c = '-'
      · subst hc
        obtain ⟨d, ds, hcs, hd⟩ := exists_digit_of_unsigned h
        exact ⟨_, _, rfl, .inr ⟨rfl, d, ds, hcs, hd⟩⟩
      · rw [splitMinus_of_ne hc] at h
        obtain ⟨d, ds, hcs, hd⟩ := exists_digit_of_unsigned h
        exact ⟨d, ds, hcs, .inl hd⟩

/-- A number is read up to a delimiter. -/
theorem Spells.numeral (h : Spells limit cs v) (hcs : ∀ c ∈ cs, IsNumeric c) (hr : Delimits rest) :
    Json.numeral limit (Text.ofChars cs ++ rest) = .ok (v, rest) := by
  have hdrop : (Text.ofChars cs ++ rest).drop (cs.length - ([] : List Char).length) = rest :=
    List.drop_left' (by simp)
  unfold Json.numeral
  rw [numericRun_append hcs hr]
  dsimp only
  rw [unsigned_start h]
  dsimp only
  rw [hdrop]

/-- No word begins as a number does. -/
theorem not_begins_word {w : Text × Json} (hw : w ∈ words) :
    ∃ c ds, w.1 = Text.ofChars (c :: ds) ∧ isDigit c = false ∧
      (c = '-' → ∃ d es, ds = d :: es ∧ isDigit d = false) := by
  simp only [words, List.mem_cons, List.not_mem_nil, or_false] at hw
  rcases hw with rfl | rfl | rfl | rfl | rfl | rfl
  · exact ⟨'n', "ull".toList, rfl, rfl, nofun⟩
  · exact ⟨'t', "rue".toList, rfl, rfl, nofun⟩
  · exact ⟨'f', "alse".toList, rfl, rfl, nofun⟩
  · exact ⟨'N', "aN".toList, rfl, rfl, nofun⟩
  · exact ⟨'I', "nfinity".toList, rfl, rfl, nofun⟩
  · exact ⟨'-', "Infinity".toList, rfl, rfl, fun _ => ⟨'I', "nfinity".toList, rfl, rfl⟩⟩

theorem ofChar_inj {c d : Char} (h : CodePoint.ofChar c = CodePoint.ofChar d) : c = d := by
  have hchar := congrArg CodePoint.char h
  rwa [CodePoint.char_ofChar, CodePoint.char_ofChar] at hchar

theorem scalar_eq_numeral (h : Begins cs) :
    scalar limit (Text.ofChars cs ++ rest) = numeral limit (Text.ofChars cs ++ rest) := by
  obtain ⟨c, cs, rfl, hc⟩ := h
  have hwords : words.find? (fun w => w.1.isPrefixOf (Text.ofChars (c :: cs) ++ rest)) = none := by
    rw [List.find?_eq_none]
    intro w hw hfront
    obtain ⟨d, ds, hword, hdigit, hminus⟩ := not_begins_word hw
    obtain ⟨t, ht⟩ := List.isPrefixOf_iff_prefix.1 hfront
    rw [hword, Text.ofChars_cons, Text.ofChars_cons, List.cons_append, List.cons_append] at ht
    obtain ⟨hhead, htail⟩ := List.cons.inj ht
    cases ofChar_inj hhead
    rcases hc with hc | ⟨rfl, e, es, rfl, he⟩
    · rw [hdigit] at hc
      cases hc
    · obtain ⟨f, fs, rfl, hf⟩ := hminus rfl
      rw [Text.ofChars_cons, Text.ofChars_cons, List.cons_append, List.cons_append] at htail
      cases ofChar_inj (List.cons.inj htail).1
      rw [hf] at he
      cases he
  rw [scalar, hwords]

/-! ### Integers -/

theorem natOfDigits_toDigits (n : Nat) : natOfDigits (Nat.toDigits 10 n) = n := by
  have hfold : natOfDigits (Nat.toDigits 10 n) = Nat.ofDigitChars 10 (Nat.toDigits 10 n) 0 := by
    unfold natOfDigits Nat.ofDigitChars
    congr 1
    funext k c
    rw [Nat.mul_comm]
    rfl
  rw [hfold, Nat.ofDigitChars_ten_toDigits]

/-- No digits of a positive number begin with a zero. -/
theorem exists_toDigits_cons {n : Nat} (hn : 0 < n) :
    ∃ c cs, Nat.toDigits 10 n = c :: cs ∧ c ≠ '0' := by
  induction n using Nat.strongRecOn with
  | ind n ih =>
      rw [Nat.toDigits_eq_if (by omega)]
      split
      · next hlt =>
          refine ⟨_, _, rfl, fun hzero => ?_⟩
          have hvalue := Nat.toNat_digitChar_of_lt_ten hlt
          have hchar : '0'.toNat = 48 := rfl
          rw [hzero] at hvalue
          omega
      · obtain ⟨c, cs, hcs, hc⟩ := ih (n / 10) (by omega) (by omega)
        exact ⟨c, _, by rw [hcs, List.cons_append], hc⟩

theorem wholePart_toDigits (n : Nat) :
    wholePart (Nat.toDigits 10 n) = some (Nat.toDigits 10 n, []) := by
  have hdigits : ∀ c ∈ Nat.toDigits 10 n, isDigit c = true := fun c hc =>
    Nat.isDigit_of_mem_toDigits (by omega) (by omega) hc
  rcases Nat.eq_zero_or_pos n with rfl | hn
  · rfl
  · obtain ⟨c, cs, hcs, hc⟩ := exists_toDigits_cons hn
    rw [hcs] at hdigits ⊢
    obtain ⟨hdigit, hrest⟩ := List.forall_mem_cons.1 hdigits
    simp only [wholePart, if_neg hc, if_pos hdigit, Option.some.injEq, Prod.mk.injEq]
    rw [List.takeWhile_eq_self_iff.2 hrest, List.dropWhile_eq_nil_iff.2 hrest]
    exact ⟨rfl, rfl⟩

theorem unsigned_toDigits {n : Nat} (hn : (Nat.toDigits 10 n).length ≤ limit) :
    unsigned limit start negative (Nat.toDigits 10 n) =
      .ok (.integer (if negative then -(n : Int) else n), []) := by
  have hlength : ¬ limit < (Nat.toDigits 10 n).length := by omega
  have hfraction : fraction [] = ([], []) := rfl
  have hexponent : exponent [] = (none, []) := rfl
  rw [unsigned, wholePart_toDigits]
  simp only [hfraction, hexponent, natOfDigits_toDigits, if_neg hlength, List.isEmpty_nil, and_self,
    if_true]

theorem splitMinus_toDigits (n : Nat) :
    Numeral.splitMinus (Nat.toDigits 10 n) = (false, Nat.toDigits 10 n) := by
  have hdigits : ∀ c ∈ Nat.toDigits 10 n, isDigit c = true := fun c hc =>
    Nat.isDigit_of_mem_toDigits (by omega) (by omega) hc
  obtain ⟨c, cs, hcs⟩ := List.exists_cons_of_ne_nil (Nat.toDigits_ne_nil (n := n) (b := 10))
  rw [hcs] at hdigits ⊢
  refine splitMinus_of_ne ?_ cs
  rintro rfl
  exact absurd (hdigits '-' List.mem_cons_self) (by decide)

/-- An integer is read back, if so many digits may be read. -/
theorem spells_toString {n : Int} (hn : digitsOf n ≤ limit) :
    Spells limit (toString n).toList (.integer n) := by
  unfold Spells
  rw [Int.toString_eq_repr, Int.repr_eq_if]
  split
  · next hnonneg =>
      have habs : n.toNat = n.natAbs := by omega
      rw [Nat.toList_repr, habs, splitMinus_toDigits]
      dsimp only
      rw [unsigned_toDigits hn, if_neg (by decide), Int.natAbs_of_nonneg hnonneg]
  · next hneg =>
      have habs : (-n).toNat = n.natAbs := by omega
      have hminus : ("-" ++ (-n).toNat.repr).toList = '-' :: Nat.toDigits 10 n.natAbs := by
        rw [String.toList_append, Nat.toList_repr, habs]
        rfl
      have hvalue : -((n.natAbs : Nat) : Int) = n := by omega
      rw [hminus, Numeral.splitMinus]
      dsimp only
      rw [unsigned_toDigits hn, if_pos rfl, hvalue]

/-! ### Numbers by themselves -/

theorem suffix_of_wholePart (h : wholePart s = some (whole, s')) : s' <:+ s := by
  cases s with
  | nil => cases h
  | cons c s =>
      simp only [wholePart] at h
      split_ifs at h
      · cases h
        exact List.suffix_cons _ _
      · cases h
        exact (List.dropWhile_suffix isDigit).trans (List.suffix_cons c s)

theorem fraction_suffix (s : List Char) : (fraction s).2 <:+ s := by
  cases s with
  | nil => exact List.suffix_rfl
  | cons c s =>
      by_cases hc : c = '.'
      · subst hc
        simp only [fraction]
        split_ifs
        · exact List.suffix_rfl
        · exact (List.dropWhile_suffix isDigit).trans (List.suffix_cons '.' s)
      · rw [fraction_of_ne hc]

theorem splitSign_suffix (s : List Char) : (Numeral.splitSign s).2 <:+ s := by
  unfold Numeral.splitSign
  split
  · exact List.suffix_cons _ _
  · exact List.suffix_cons _ _
  · exact List.suffix_rfl

theorem exponent_suffix (s : List Char) : (exponent s).2 <:+ s := by
  cases s with
  | nil => exact List.suffix_rfl
  | cons e s =>
      have hdigits : (Numeral.splitSign s).2.dropWhile isDigit <:+ e :: s :=
        ((List.dropWhile_suffix isDigit).trans (splitSign_suffix s)).trans (List.suffix_cons e s)
      by_cases he : e = 'e' ∨ e = 'E'
      · simp only [exponent, if_pos he]
        split
        · exact List.suffix_rfl
        · exact hdigits
      · rw [exponent_of_ne he]

theorem suffix_of_unsigned (h : unsigned limit start negative s = .ok (v, s')) : s' <:+ s := by
  unfold unsigned at h
  cases hw : wholePart s with
  | none =>
      rw [hw] at h
      cases h
  | some split =>
      rw [hw] at h
      have hrest : (exponent (fraction split.2).2).2 <:+ s :=
        ((exponent_suffix _).trans (fraction_suffix _)).trans (suffix_of_wholePart hw)
      dsimp only at h
      split_ifs at h <;> cases h <;> exact hrest

theorem splitMinus_suffix (s : List Char) : (Numeral.splitMinus s).2 <:+ s := by
  unfold Numeral.splitMinus
  split
  · exact List.suffix_cons _ _
  · exact List.suffix_rfl

/-- A value that begins with no quote and no bracket is a word or a number. -/
theorem value_eq_scalar (hs : ∀ p ∈ start.head?, p.char ≠ '"' ∧ p.char ≠ '[' ∧ p.char ≠ '\x7b') :
    value limit (fuel + 1) room start = scalar limit start := by
  cases start with
  | nil => rfl
  | cons p rest =>
      obtain ⟨hquote, harray, hobject⟩ := hs p rfl
      unfold value
      rw [if_neg hquote, if_neg harray, if_neg hobject]

theorem not_finite_of_word {w : Text × Json} (hw : w ∈ words) (hx : w.2 = .number x) :
    x.isFinite = false := by
  simp only [words, List.mem_cons, List.not_mem_nil, or_false] at hw
  rcases hw with rfl | rfl | rfl | rfl | rfl | rfl <;> cases hx <;> rfl

theorem not_isBlank_of_isNumeric {c : Char} (hc : IsNumeric c) : isBlank c = false := by
  have hspace := hc.space_lt
  have hblank (d : Char) (hd : d.toNat ≤ 32) : c ≠ d := by
    rintro rfl
    omega
  simp [isBlank, hblank ' ' (by decide), hblank '\t' (by decide), hblank '\n' (by decide),
    hblank '\r' (by decide)]

theorem skipBlanks_eq_self (hs : ∀ p ∈ start.head?, isBlank p.char = false) :
    skipBlanks start = start := by
  cases start with
  | nil => rfl
  | cons p rest => simp [skipBlanks, hs p rfl]

/-- A scalar is one of the words, or a number. -/
theorem word_or_numeral (h : scalar limit start = .ok (v, rest)) :
    (∃ w ∈ words, w.2 = v) ∨ numeral limit start = .ok (v, rest) := by
  unfold scalar at h
  cases hw : words.find? fun w => w.1.isPrefixOf start with
  | none =>
      rw [hw] at h
      exact .inr h
  | some w =>
      rw [hw] at h
      cases h
      exact .inl ⟨w, List.mem_of_find?_eq_some hw, rfl⟩

/-- Behind the value of a whole text there are blanks only. -/
theorem exists_value_of_parseWithin (h : parseWithin limit room start = .ok v) :
    ∃ rest, value limit (2 * start.length + 2) room (skipBlanks start) = .ok (v, rest) ∧
      skipBlanks rest = [] := by
  unfold parseWithin at h
  cases hv : value limit (2 * start.length + 2) room (skipBlanks start) with
  | error e =>
      rw [hv] at h
      cases h
  | ok read =>
      rw [hv] at h
      dsimp only at h
      split at h
      · next hrest =>
          cases h
          exact ⟨read.2, rfl, hrest⟩
      · cases h

end Json

/-- The text of a finite value is read as the value. -/
structure Binary64.ReadsBack (x : Binary64) : Prop where
  finite : x.isFinite = true
  parse : Json.parse (.ofString x.text) = .ok (.number x)

namespace Json

variable {limit : Nat} {cs : List Char} {x : Binary64}

/-- If a text of such characters is read as a number to its end, all of it spells the number. -/
theorem spells_of_numeral (hcs : ∀ c ∈ cs, IsNumeric c)
    (h : numeral limit (Text.ofChars cs) = .ok (.number x, [])) (limit' : Nat) :
    Spells limit' cs (.number x) := by
  have hend : Delimits [] := by simp [Delimits]
  have hrun := numericRun_append hcs hend
  rw [List.append_nil] at hrun
  unfold numeral at h
  rw [hrun] at h
  dsimp only at h
  cases hu : unsigned limit (Text.ofChars cs) (Numeral.splitMinus cs).1 (Numeral.splitMinus cs).2 with
  | error stop =>
      rw [hu] at h
      cases h
  | ok read =>
      obtain ⟨w, s'⟩ := read
      rw [hu] at h
      obtain ⟨rfl, hrest⟩ := Prod.mk.inj (Except.ok.inj h)
      have hlength : s'.length ≤ cs.length :=
        ((suffix_of_unsigned hu).trans (splitMinus_suffix cs)).length_le
      have hnil : s' = [] := by
        have hdrop := congrArg List.length hrest
        rw [List.length_drop, Text.length_ofChars, List.length_nil] at hdrop
        exact List.length_eq_zero_iff.1 (by omega)
      subst hnil
      exact unsigned_of_number (unsigned_start hu)

/-- A value whose text is read as it has the text of a number, and of nothing more. -/
theorem spells_text (h : x.ReadsBack) (limit : Nat) : Spells limit x.text.toList (.number x) := by
  have hparse := h.parse
  have hnumeric := Binary64.numeric_text h.finite
  unfold Numeric at hnumeric
  change parse (Text.ofChars x.text.toList) = _ at hparse
  generalize x.text.toList = cs at hparse hnumeric ⊢
  have hmem : ∀ p ∈ Text.ofChars cs, IsNumeric p.char := by
    intro p hp
    obtain ⟨c, hc, rfl⟩ := List.mem_map.1 hp
    rw [CodePoint.char_ofChar]
    exact hnumeric c hc
  have hblank : ∀ p ∈ Text.ofChars cs, isBlank p.char = false := fun p hp =>
    not_isBlank_of_isNumeric (hmem p hp)
  have hstart : ∀ p ∈ (Text.ofChars cs).head?, p.char ≠ '"' ∧ p.char ≠ '[' ∧ p.char ≠ '\x7b' := by
    intro p hp
    have hp := hmem p (List.mem_of_mem_head? hp)
    refine ⟨?_, ?_, ?_⟩ <;> intro hc <;> rw [hc] at hp <;> exact absurd hp (by decide)
  obtain ⟨rest, hvalue, hend⟩ := exists_value_of_parseWithin hparse
  rw [skipBlanks_eq_self fun p hp => hblank p (List.mem_of_mem_head? hp),
    value_eq_scalar hstart] at hvalue
  rcases word_or_numeral hvalue with ⟨w, hw, hx⟩ | hn
  · have hword := not_finite_of_word hw hx
    rw [h.finite] at hword
    cases hword
  · have hrest : ∀ p ∈ rest, p ∈ Text.ofChars cs := by
      unfold numeral at hn
      dsimp only at hn
      split at hn
      · cases hn
        exact fun p hp => List.mem_of_mem_drop hp
      · cases hn
    rw [skipBlanks_eq_self fun p hp => hblank p (hrest p (List.mem_of_mem_head? hp))] at hend
    subst hend
    exact spells_of_numeral hnumeric hn limit

end Json
end JarRank
