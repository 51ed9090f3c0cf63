import JarRank.Number.Shortest

/-!
# The characters of numbers

Every integer and every finite binary64 value is written with digits, signs, points and the
letter of an exponent, and with nothing else.
-/
namespace JarRank

/-- A character that may stand in a number. -/
def IsNumeric (c : Char) : Prop := c.isDigit = true ∨ c = '.' ∨ c = '-' ∨ c = '+' ∨ c = 'e'

instance (c : Char) : Decidable (IsNumeric c) := inferInstanceAs (Decidable (_ ∨ _))

namespace IsNumeric

variable {c : Char}

theorem toNat_lt (h : IsNumeric c) : c.toNat < 128 := by
  rcases h with h | rfl | rfl | rfl | rfl
  · have hrange : 48 ≤ c.toNat ∧ c.toNat ≤ 57 := Char.isDigit_iff_toNat.1 h
    omega
  all_goals decide

theorem space_lt (h : IsNumeric c) : 32 < c.toNat := by
  rcases h with h | rfl | rfl | rfl | rfl
  · have hrange : 48 ≤ c.toNat ∧ c.toNat ≤ 57 := Char.isDigit_iff_toNat.1 h
    omega
  all_goals decide

end IsNumeric

/-- Nothing but characters of numbers stands in a text. -/
def Numeric (s : String) : Prop := ∀ c ∈ s.toList, IsNumeric c

instance (s : String) : Decidable (Numeric s) := List.decidableBAll IsNumeric s.toList

@[simp] theorem numeric_append {s t : String} : Numeric (s ++ t) ↔ Numeric s ∧ Numeric t := by
  simp [Numeric, or_imp, forall_and]

theorem numeric_ofList {cs : List Char} (h : ∀ c ∈ cs, IsNumeric c) : Numeric (String.ofList cs) := by
  simpa [Numeric] using h

theorem numeric_natToString (n : Nat) : Numeric (toString n) := by
  rw [Nat.toString_eq_ofList_toDigits]
  exact numeric_ofList fun c hc => .inl (Nat.isDigit_of_mem_toDigits (by omega) (by omega) hc)

theorem numeric_intToString (n : Int) : Numeric (toString n) := by
  have hnat (k : Nat) : Numeric k.repr := numeric_natToString k
  have hminus : Numeric "-" := by decide
  rw [Int.toString_eq_repr, Int.repr_eq_if]
  split
  · exact hnat _
  · rw [numeric_append]
    exact ⟨hminus, hnat _⟩

namespace Binary64

@[simp] theorem numeric_sign (negative : Bool) : Numeric (sign negative) := by
  cases negative <;> decide

@[simp] theorem numeric_zeros (n : Nat) : Numeric (zeros n) := by
  refine numeric_ofList fun c hc => ?_
  rw [List.eq_of_mem_replicate hc]
  decide

theorem Decimal.numeric_text (d : Decimal) : Numeric d.text := by
  have hdigits := numeric_natToString d.digits
  have htake (n : Nat) : Numeric (String.ofList ((toString d.digits).toList.take n)) :=
    numeric_ofList fun c hc => hdigits c (List.mem_of_mem_take hc)
  have hdrop (n : Nat) : Numeric (String.ofList ((toString d.digits).toList.drop n)) :=
    numeric_ofList fun c hc => hdigits c (List.mem_of_mem_drop hc)
  have hzero : Numeric "0." := by decide
  have hpoint : Numeric "." := by decide
  have hend : Numeric ".0" := by decide
  have hminus : Numeric "e-" := by decide
  have hplus : Numeric "e+" := by decide
  have hempty : Numeric "" := by decide
  unfold text
  dsimp only
  split
  · split
    · simp only [numeric_append, hzero, hdigits, numeric_zeros, and_self]
    · split
      · simp only [numeric_append, hpoint, htake, hdrop, and_self]
      · simp only [numeric_append, hend, hdigits, numeric_zeros, and_self]
  · simp only [numeric_append, htake, numeric_zeros, numeric_natToString, true_and, and_true]
    constructor
    · split
      · exact hempty
      · rw [numeric_append]
        exact ⟨hpoint, hdrop 1⟩
    · split
      · exact hminus
      · exact hplus

theorem numeric_text {x : Binary64} (h : x.isFinite = true) : Numeric x.text := by
  cases x with
  | finite negative m e =>
      have hzero : Numeric "0.0" := by decide
      rw [text, numeric_append]
      refine ⟨numeric_sign negative, ?_⟩
      split
      · exact hzero
      · exact (shortest m e).numeric_text
  | infinite negative => cases h
  | nan => cases h

end Binary64
end JarRank
