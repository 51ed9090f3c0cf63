import JarRank.Bytes.Hex

/-!
# Hexadecimal text of a width

A number that is small enough for a width is written with exactly as many digits, and each
digit has the value that it is written for.
-/
namespace JarRank.Hex

variable {ten : Char} {n fuel width : Nat}

/-- The last digits of a number, as many as there is room for. -/
def lastDigits (ten : Char) : (width : Nat) → Nat → List Char
  | 0, _ => []
  | width + 1, n => lastDigits ten width (n / 16) ++ [digit ten (n % 16)]

theorem lastDigits_zero (ten : Char) (width : Nat) :
    lastDigits ten width 0 = List.replicate width '0' := by
  induction width with
  | zero => rfl
  | succ width ih =>
      rw [lastDigits, Nat.zero_div, ih, List.replicate_succ']
      rfl

/-- The digits of a number are written before what stands behind them, and zeros in front of them
make the last digits of it. -/
theorem exists_digitsFrom (ten : Char) (hn : n < Nat.pow 16 width) (hf : n ≤ fuel)
    (tail : List Char) :
    ∃ ds, digitsFrom ten fuel n tail = ds ++ tail ∧ ds.length ≤ width ∧
      List.replicate (width - ds.length) '0' ++ ds = lastDigits ten width n := by
  induction width generalizing n fuel tail with
  | zero =>
      obtain rfl : n = 0 := Nat.lt_one_iff.1 hn
      refine ⟨[], ?_, Nat.le_refl _, rfl⟩
      cases fuel <;> simp [digitsFrom]
  | succ width ih =>
      by_cases hz : n = 0
      · subst hz
        refine ⟨[], ?_, Nat.zero_le _, ?_⟩
        · cases fuel <;> simp [digitsFrom]
        · simp [lastDigits_zero]
      · obtain ⟨fuel, rfl⟩ : ∃ k, fuel = k + 1 := ⟨fuel - 1, by omega⟩
        have hpow : Nat.pow 16 (width + 1) = Nat.pow 16 width * 16 := rfl
        have hdiv : n / 16 < Nat.pow 16 width := by omega
        have hfuel : n / 16 ≤ fuel := by omega
        obtain ⟨ds, hds, hlength, hlast⟩ := ih hdiv hfuel (digit ten (n % 16) :: tail)
        refine ⟨ds ++ [digit ten (n % 16)], ?_, by simpa using hlength, ?_⟩
        · rw [digitsFrom, if_neg hz, hds, List.append_assoc, List.singleton_append]
        · rw [lastDigits, ← hlast, List.length_append, List.length_singleton, List.append_assoc,
            Nat.add_sub_add_right]

/-- A number that is small enough for a width is written with exactly as many digits. -/
theorem toList_padded (hn : n < Nat.pow 16 width) :
    (padded ten width n).toList = lastDigits ten width n := by
  obtain ⟨ds, hds, -, hlast⟩ := exists_digitsFrom ten hn (Nat.le_refl n) []
  rw [List.append_nil] at hds
  rw [padded, hds, String.toList_ofList, hlast]

theorem toList_lower_four (hn : n < 0x10000) :
    (lower 4 n).toList = [digit 'a' (n / 16 / 16 / 16 % 16), digit 'a' (n / 16 / 16 % 16),
      digit 'a' (n / 16 % 16), digit 'a' (n % 16)] :=
  toList_padded hn

theorem value?_digit (hn : n < 16) : value? (digit 'a' n) = some n := by
  have hall : ∀ k : Fin 16, value? (digit 'a' k) = some k.val := by decide
  exact hall ⟨n, hn⟩

end JarRank.Hex
