import JarRank.Bytes.Number
import JarRank.Text.Utf8

/-!
# The lossy reading of UTF-8

Above U+007F a character is spelled by a first byte, which tells how many bytes there are, and by
continuation bytes that give six bits each. A character begun stands for the numbers that it covers:
they have the bits that were read, and their next group is in the range of the next byte. Because
this range is confined behind some first bytes, no number is covered that is a surrogate, too large
or spelled with fewer bytes, and the bytes that were read begin the spelling of every number that is.

So wherever the reading gives a character, it has passed exactly the bytes that spell it, and
everywhere else it gives U+FFFD. A text without U+FFFD is read from its encoding and from no other
bytes.
-/
namespace JarRank.Utf8

/-! ### The spelling of a character -/

/-- What a group of six bits is worth in front of some others. -/
def place : Nat → Nat
  | 0 => 1
  | k + 1 => 64 * place k

/-- The group of six bits of a number in front of the last `k` groups. -/
def group (k n : Nat) : Nat := n / place k % 64

theorem group_lt (k n : Nat) : group k n < 64 := Nat.mod_lt _ (by decide)

theorem div_place (k n : Nat) : n / place k = n / place (k + 1) * 64 + group k n := by
  have hplace : n / place (k + 1) = n / place k / 64 := by
    rw [place, Nat.mul_comm, Nat.div_div_eq_div_mul]
  rw [hplace, group]
  omega

/-- The bytes that spell the last groups of a number. -/
def continuation : Nat → Nat → Bytes
  | 0, _ => []
  | k + 1, n => UInt8.ofNat (group k n + 0x80) :: continuation k n

theorem val_ofNat {n : Nat} (h : n.isValidChar) : (Char.ofNat n).val.toNat = n := by
  rw [Char.ofNat, dif_pos h]
  rfl

theorem encodeChar_one {c : Char} (h : c.toNat < 0x80) :
    String.utf8EncodeChar c = [UInt8.ofNat c.toNat] := by
  rw [String.utf8EncodeChar.eq_1]
  exact if_pos (Nat.le_of_lt_succ h)

section
variable {n : Nat}

theorem encodeChar_two (hlow : 0x80 ≤ n) (hhigh : n < 0x800) :
    String.utf8EncodeChar (Char.ofNat n) = UInt8.ofNat (n / place 1 + 0xC0) :: continuation 1 n := by
  have hn : (Char.ofNat n).val.toNat = n := val_ofNat (.inl (by omega))
  have hfirst : n / 64 % 32 = n / 64 := Nat.mod_eq_of_lt (by omega)
  rw [String.utf8EncodeChar.eq_1, hn, if_neg (by omega), if_pos (by omega), hfirst]
  simp [continuation, group, place]

theorem encodeChar_three (hn : n.isValidChar) (hlow : 0x800 ≤ n) (hhigh : n < 0x10000) :
    String.utf8EncodeChar (Char.ofNat n) = UInt8.ofNat (n / place 2 + 0xE0) :: continuation 2 n := by
  have hn : (Char.ofNat n).val.toNat = n := val_ofNat hn
  have hfirst : n / 4096 % 16 = n / 4096 := Nat.mod_eq_of_lt (by omega)
  rw [String.utf8EncodeChar.eq_1, hn, if_neg (by omega), if_neg (by omega), if_pos (by omega), hfirst]
  simp [continuation, group, place]

theorem encodeChar_four (hlow : 0x10000 ≤ n) (hhigh : n < 0x110000) :
    String.utf8EncodeChar (Char.ofNat n) = UInt8.ofNat (n / place 3 + 0xF0) :: continuation 3 n := by
  have hn : (Char.ofNat n).val.toNat = n := val_ofNat (.inr ⟨by omega, hhigh⟩)
  have hfirst : n / 262144 % 8 = n / 262144 := Nat.mod_eq_of_lt (by omega)
  rw [String.utf8EncodeChar.eq_1, hn, if_neg (by omega), if_neg (by omega), if_neg (by omega), hfirst]
  simp [continuation, group, place]

end

/-! ### Characters that have begun -/

namespace Partial

variable {p q : Partial} {bs : Bytes} {b : UInt8} {n : Nat}

/-- A number that a begun character may still mean: it has the bits that were read, and its next
group is in the range of the next byte. -/
structure Covers (p : Partial) (n : Nat) : Prop where
  value : n / place p.needed = p.value
  low_le : p.low.toNat ≤ group (p.needed - 1) n + 0x80
  le_high : group (p.needed - 1) n + 0x80 ≤ p.high.toNat

/-- The bytes read so far begin the spelling of each character that may be meant. -/
structure Begins (p : Partial) (bs : Bytes) : Prop where
  needed_pos : 0 < p.needed
  low_le : 0x80 ≤ p.low.toNat
  high_le : p.high.toNat ≤ 0xBF
  spells : ∀ n, p.Covers n → String.utf8EncodeChar (Char.ofNat n) = bs ++ continuation p.needed n

end Partial

section
variable {x t : Nat} {low high : UInt8}

theorem begins_two (h2 : 2 ≤ x) (h32 : x < 32) :
    (Partial.mk x 1 0x80 0xBF t).Begins [UInt8.ofNat (x + 0xC0)] where
  needed_pos := Nat.one_pos
  low_le := Nat.le_refl _
  high_le := Nat.le_refl _
  spells n h := by
    have hn : n / 64 = x := h.value
    rw [encodeChar_two (by omega) (by omega)]
    simp [place, hn]

theorem begins_three (h16 : x < 16) (hlow : 0x80 ≤ low.toNat) (hhigh : high.toNat ≤ 0xBF)
    (hfirst : x = 0 → 0xA0 ≤ low.toNat) (hsurrogate : x = 13 → high.toNat ≤ 0x9F) :
    (Partial.mk x 2 low high t).Begins [UInt8.ofNat (x + 0xE0)] where
  needed_pos := Nat.two_pos
  low_le := hlow
  high_le := hhigh
  spells n h := by
    have hn : n / 4096 = x := h.value
    have hl : low.toNat ≤ n / 64 % 64 + 0x80 := h.low_le
    have hh : n / 64 % 64 + 0x80 ≤ high.toNat := h.le_high
    have hvalid : n.isValidChar := by
      unfold Nat.isValidChar
      omega
    rw [encodeChar_three hvalid (by omega) (by omega)]
    simp [place, hn]

theorem begins_four (h4 : x ≤ 4) (hlow : 0x80 ≤ low.toNat) (hhigh : high.toNat ≤ 0xBF)
    (hfirst : x = 0 → 0x90 ≤ low.toNat) (hlast : x = 4 → high.toNat ≤ 0x8F) :
    (Partial.mk x 3 low high t).Begins [UInt8.ofNat (x + 0xF0)] where
  needed_pos := Nat.succ_pos 2
  low_le := hlow
  high_le := hhigh
  spells n h := by
    have hn : n / 262144 = x := h.value
    have hl : low.toNat ≤ n / 4096 % 64 + 0x80 := h.low_le
    have hh : n / 4096 % 64 + 0x80 ≤ high.toNat := h.le_high
    rw [encodeChar_four (by omega) (by omega)]
    simp [place, hn]

end

theorem begins_of_start {b : UInt8} {p : Partial} (h : start b = .lead p) : p.Begins [b] := by
  have hbyte (m : Nat) (hm : m ≤ b.toNat) : UInt8.ofNat (b.toNat - m + m) = b := by
    rw [Nat.sub_add_cancel hm, UInt8.ofNat_toNat]
  have hne {m : UInt8} (hm : ¬ b = m) : b.toNat ≠ m.toNat := fun he => hm (UInt8.toNat_inj.1 he)
  unfold start at h
  split at h
  · cases h
  split at h
  · cases h
  split at h
  · next _ h2 h3 =>
    have hlow : ¬ b.toNat < 0xC2 := h2
    have hhigh : b.toNat < 0xE0 := h3
    obtain rfl := Start.lead.inj h
    have hbegins : (Partial.mk (b.toNat - 0xC0) 1 0x80 0xBF 1).Begins
        [UInt8.ofNat (b.toNat - 0xC0 + 0xC0)] := begins_two (by omega) (by omega)
    rwa [hbyte 0xC0 (by omega)] at hbegins
  split at h
  · next hfirst =>
    obtain rfl := Start.lead.inj h
    subst hfirst
    exact begins_three (by decide) (by decide) (by decide) (by decide) (by decide)
  split at h
  · next hsurrogate =>
    obtain rfl := Start.lead.inj h
    subst hsurrogate
    exact begins_three (by decide) (by decide) (by decide) (by decide) (by decide)
  split at h
  · next _ _ h3 hfirst hsurrogate h4 =>
    have hlow : ¬ b.toNat < 0xE0 := h3
    have hhigh : b.toNat < 0xF0 := h4
    have hfirst : b.toNat ≠ 0xE0 := hne hfirst
    have hsurrogate : b.toNat ≠ 0xED := hne hsurrogate
    obtain rfl := Start.lead.inj h
    have hbegins : (Partial.mk (b.toNat - 0xE0) 2 0x80 0xBF 1).Begins
        [UInt8.ofNat (b.toNat - 0xE0 + 0xE0)] :=
      begins_three (by omega) (by decide) (by decide) (by omega) (by omega)
    rwa [hbyte 0xE0 (by omega)] at hbegins
  split at h
  · next hfirst =>
    obtain rfl := Start.lead.inj h
    subst hfirst
    exact begins_four (by decide) (by decide) (by decide) (by decide) (by decide)
  split at h
  · next _ _ _ _ _ h4 hfirst h5 =>
    have hlow : ¬ b.toNat < 0xF0 := h4
    have hhigh : b.toNat < 0xF4 := h5
    have hfirst : b.toNat ≠ 0xF0 := hne hfirst
    obtain rfl := Start.lead.inj h
    have hbegins : (Partial.mk (b.toNat - 0xF0) 3 0x80 0xBF 1).Begins
        [UInt8.ofNat (b.toNat - 0xF0 + 0xF0)] :=
      begins_four (by omega) (by decide) (by decide) (by omega) (by omega)
    rwa [hbyte 0xF0 (by omega)] at hbegins
  split at h
  · next hlast =>
    obtain rfl := Start.lead.inj h
    subst hlast
    exact begins_four (by decide) (by decide) (by decide) (by decide) (by decide)
  · cases h

theorem encodeChar_of_start {b : UInt8} {c : Char} (h : start b = .char c) :
    String.utf8EncodeChar c = [b] := by
  unfold start at h
  split at h
  · next hb =>
    have hb : b.toNat < 0x80 := hb
    obtain rfl := Start.char.inj h
    have hc : (Char.ofNat b.toNat).toNat = b.toNat := val_ofNat (.inl (by omega))
    rw [encodeChar_one (hc.symm ▸ hb), hc, UInt8.ofNat_toNat]
  · repeat' split at h
    all_goals cases h

namespace Partial

variable {p q : Partial} {bs : Bytes} {b : UInt8} {n k : Nat}

/-- The numbers that have the bits of the next byte too are covered, and it is the next byte of their
spelling. -/
theorem Begins.covers (h : p.Begins bs) (hlow : p.low ≤ b) (hhigh : b ≤ p.high)
    (hk : p.needed = k + 1) (hn : n / place k = p.value * 64 + (b.toNat - 0x80)) :
    p.Covers n ∧ continuation p.needed n = b :: continuation k n := by
  have h1 := h.low_le
  have h2 := h.high_le
  have hl : p.low.toNat ≤ b.toNat := hlow
  have hh : b.toNat ≤ p.high.toNat := hhigh
  have hgroup : group k n = b.toNat - 0x80 := by
    rw [group, hn]
    omega
  have hbyte : group k n + 0x80 = b.toNat := by omega
  refine ⟨⟨?_, ?_, ?_⟩, ?_⟩
  · rw [hk, place, Nat.mul_comm, ← Nat.div_div_eq_div_mul, hn]
    omega
  · rw [hk, Nat.add_sub_cancel, hbyte]
    exact hl
  · rw [hk, Nat.add_sub_cancel, hbyte]
    exact hh
  · rw [hk, continuation, hbyte, UInt8.ofNat_toNat]

/-- Where a byte ends a character, the bytes that were read spell it. -/
theorem Begins.encodeChar {c : Char} (h : p.Begins bs) (hb : p.next b = .char c) :
    String.utf8EncodeChar c = bs ++ [b] := by
  unfold next at hb
  split at hb
  · next hrange =>
    dsimp only at hb
    split at hb
    · next hneeded =>
      obtain rfl := Next.char.inj hb
      have hone : p.needed = 0 + 1 := Nat.le_antisymm hneeded h.needed_pos
      have hcovers := h.covers hrange.1 hrange.2 hone (Nat.div_one _)
      rw [h.spells _ hcovers.1, hcovers.2]
      rfl
    · cases hb
  · cases hb

/-- A byte inside a character belongs to its beginning. -/
theorem Begins.more (h : p.Begins bs) (hb : p.next b = .more q) : q.Begins (bs ++ [b]) := by
  unfold next at hb
  split at hb
  · next hrange =>
    dsimp only at hb
    split at hb
    · cases hb
    · next hneeded =>
      obtain rfl := Next.more.inj hb
      have hk : p.needed = p.needed - 1 + 1 := by omega
      refine ⟨Nat.sub_pos_of_lt (Nat.not_le.1 hneeded), Nat.le_refl _, Nat.le_refl _, ?_⟩
      intro n hn
      have hcovers := h.covers hrange.1 hrange.2 hk hn.value
      rw [h.spells n hcovers.1, hcovers.2, List.append_assoc, List.singleton_append]
  · cases hb

/-- The next byte in the spelling of a number that is covered is in the range, and its bits are
those of the number. -/
theorem Covers.next_eq (h : p.Covers n) (hk : p.needed = k + 1) :
    p.next (UInt8.ofNat (group k n + 0x80)) =
      if k = 0 then .char (Char.ofNat (n / place k))
      else .more ⟨n / place k, k, 0x80, 0xBF, p.taken + 1⟩ := by
  have hlt := group_lt k n
  have hsize : group k n + 0x80 < 256 := by omega
  have hbyte : (UInt8.ofNat (group k n + 0x80)).toNat = group k n + 0x80 :=
    UInt8.toNat_ofNat_of_lt' hsize
  have hvalue : p.value * 64 + group k n = n / place k := by
    rw [div_place, ← hk, h.value]
  have hlow := h.low_le
  have hhigh := h.le_high
  rw [hk, Nat.add_sub_cancel] at hlow hhigh
  have hrange : p.low ≤ UInt8.ofNat (group k n + 0x80) ∧ UInt8.ofNat (group k n + 0x80) ≤ p.high := by
    rw [UInt8.le_iff_toNat_le, UInt8.le_iff_toNat_le, hbyte]
    exact ⟨hlow, hhigh⟩
  unfold next
  rw [if_pos hrange, hbyte, Nat.add_sub_cancel, hvalue, hk]
  simp

/-- Inside a character, a number that is covered still is. -/
theorem covers_continuation (k n t : Nat) : (mk (n / place (k + 1)) (k + 1) 0x80 0xBF t).Covers n where
  value := rfl
  low_le := Nat.le_add_left _ _
  le_high := Nat.add_le_add_right (Nat.le_of_lt_succ (group_lt k n)) _

end Partial

/-! ### Reading an encoding -/

/-- From inside a character, the rest of the spelling of a number that is covered is read. -/
theorem lossyFrom_continuation {p : Partial} {k n : Nat} (h : p.Covers n) (hk : p.needed = k + 1)
    (bs : Bytes) (acc : List Char) :
    lossyFrom (some p) (continuation (k + 1) n ++ bs) acc = lossyFrom none bs (Char.ofNat n :: acc) := by
  induction k generalizing p with
  | zero =>
      rw [continuation, List.cons_append, lossyFrom, lossyStep, h.next_eq hk, if_pos rfl, place,
        Nat.div_one]
      rfl
  | succ k ih =>
      rw [continuation, List.cons_append, lossyFrom, lossyStep, h.next_eq hk,
        if_neg (Nat.succ_ne_zero k)]
      exact ih (Partial.covers_continuation k n _) rfl

theorem start_one {c : Char} (h : c.toNat < 0x80) : start (UInt8.ofNat c.toNat) = .char c := by
  have hsize : c.toNat < 256 := by omega
  have hbyte : (UInt8.ofNat c.toNat).toNat = c.toNat := UInt8.toNat_ofNat_of_lt' hsize
  have hlow : UInt8.ofNat c.toNat < 0x80 := UInt8.lt_iff_toNat_lt.2 (hbyte.symm ▸ h)
  rw [start, if_pos hlow, hbyte, Char.ofNat_toNat]

theorem start_two {x : Nat} (h2 : 2 ≤ x) (h32 : x < 32) :
    start (UInt8.ofNat (x + 0xC0)) = .lead ⟨x, 1, 0x80, 0xBF, 1⟩ := by
  have hall : ∀ x < 32, 2 ≤ x → start (UInt8.ofNat (x + 0xC0)) = .lead ⟨x, 1, 0x80, 0xBF, 1⟩ := by
    decide
  exact hall x h32 h2

theorem start_three {x : Nat} (h16 : x < 16) : start (UInt8.ofNat (x + 0xE0)) =
    .lead ⟨x, 2, if x = 0 then 0xA0 else 0x80, if x = 13 then 0x9F else 0xBF, 1⟩ := by
  have hall : ∀ x < 16, start (UInt8.ofNat (x + 0xE0)) =
      .lead ⟨x, 2, if x = 0 then 0xA0 else 0x80, if x = 13 then 0x9F else 0xBF, 1⟩ := by decide
  exact hall x h16

theorem start_four {x : Nat} (h4 : x ≤ 4) : start (UInt8.ofNat (x + 0xF0)) =
    .lead ⟨x, 3, if x = 0 then 0x90 else 0x80, if x = 4 then 0x8F else 0xBF, 1⟩ := by
  have hall : ∀ x ≤ 4, start (UInt8.ofNat (x + 0xF0)) =
      .lead ⟨x, 3, if x = 0 then 0x90 else 0x80, if x = 4 then 0x8F else 0xBF, 1⟩ := by decide
  exact hall x h4

/-- Behind a first byte a number is covered if its next group keeps to a range that is confined. -/
theorem covers_lead {k n t : Nat} {P Q : Prop} [Decidable P] [Decidable Q] {low high : UInt8}
    (hlow : P → low.toNat ≤ group k n + 0x80) (hhigh : Q → group k n + 0x80 ≤ high.toNat) :
    (Partial.mk (n / place (k + 1)) (k + 1) (if P then low else 0x80) (if Q then high else 0xBF)
      t).Covers n := by
  refine ⟨rfl, ?_, ?_⟩
  · change (if P then low else 0x80 : UInt8).toNat ≤ group k n + 0x80
    split
    · next hP => exact hlow hP
    · exact Nat.le_add_left _ _
  · change group k n + 0x80 ≤ (if Q then high else 0xBF : UInt8).toNat
    split
    · next hQ => exact hhigh hQ
    · exact Nat.add_le_add_right (Nat.le_of_lt_succ (group_lt k n)) _

/-- Above U+007F, the spelling of a character opens with a byte that leads to where it is covered. -/
theorem exists_lead {n : Nat} (hn : n.isValidChar) (h128 : 0x80 ≤ n) :
    ∃ (b : UInt8) (p : Partial) (k : Nat), start b = .lead p ∧ p.Covers n ∧ p.needed = k + 1 ∧
      String.utf8EncodeChar (Char.ofNat n) = b :: continuation (k + 1) n := by
  have hvalid : n < 0xD800 ∨ 0xDFFF < n ∧ n < 0x110000 := hn
  rcases Nat.lt_or_ge n 0x800 with h2 | h2
  · have hfirst : n / place 1 = n / 64 := rfl
    have hstart := start_two (x := n / place 1) (by omega) (by omega)
    exact ⟨_, _, 0, hstart, Partial.covers_continuation 0 n 1, rfl, encodeChar_two h128 h2⟩
  rcases Nat.lt_or_ge n 0x10000 with h3 | h3
  · have hfirst : n / place 2 = n / 4096 := rfl
    have hgroup : group 1 n = n / 64 % 64 := rfl
    have hlow : n / place 2 = 0 → 0xA0 ≤ group 1 n + 0x80 := by omega
    have hhigh : n / place 2 = 13 → group 1 n + 0x80 ≤ 0x9F := by omega
    have hstart := start_three (x := n / place 2) (by omega)
    exact ⟨_, _, 1, hstart, covers_lead hlow hhigh, rfl, encodeChar_three hn h2 h3⟩
  · have hfirst : n / place 3 = n / 262144 := rfl
    have hgroup : group 2 n = n / 4096 % 64 := rfl
    have hlow : n / place 3 = 0 → 0x90 ≤ group 2 n + 0x80 := by omega
    have hhigh : n / place 3 = 4 → group 2 n + 0x80 ≤ 0x8F := by omega
    have hstart := start_four (x := n / place 3) (by omega)
    exact ⟨_, _, 2, hstart, covers_lead hlow hhigh, rfl, encodeChar_four h3 (by omega)⟩

theorem lossyFrom_encodeChar (c : Char) (bs : Bytes) (acc : List Char) :
    lossyFrom none (String.utf8EncodeChar c ++ bs) acc = lossyFrom none bs (c :: acc) := by
  by_cases h : c.toNat < 0x80
  · rw [encodeChar_one h, List.singleton_append, lossyFrom, lossyStep, lossyStart, start_one h]
  · have hvalid : c.toNat.isValidChar := c.valid
    obtain ⟨b, p, k, hstart, hcovers, hk, hspelled⟩ := exists_lead hvalid (Nat.not_lt.1 h)
    rw [Char.ofNat_toNat] at hspelled
    rw [hspelled, List.cons_append, lossyFrom, lossyStep, lossyStart, hstart]
    dsimp only
    rw [lossyFrom_continuation hcovers hk, Char.ofNat_toNat]

theorem lossyFrom_flatMap (cs : List Char) (acc : List Char) :
    lossyFrom none (cs.flatMap String.utf8EncodeChar) acc = acc.reverse ++ cs := by
  induction cs generalizing acc with
  | nil => simp [lossyFrom]
  | cons c cs ih =>
      rw [List.flatMap_cons, lossyFrom_encodeChar, ih, List.reverse_cons, List.append_assoc]
      rfl

/-! ### Reading any bytes -/

/-- A lossy reading is inside the character that begins with some bytes, or between two if there are
none. -/
def Inside (front : Bytes) : Option Partial → Prop
  | none => front = []
  | some p => p.Begins front

/-- Behind more bytes a lossy reading has more characters. With the bytes that it is inside of, these
spell what it has read, unless U+FFFD is one of them. -/
structure Spells (bs : Bytes) (acc : List Char) (after : Option Partial × List Char) (cs : List Char)
    (back : Bytes) : Prop where
  added : after.2 = cs.reverse ++ acc
  inside : Inside back after.1
  spelled : replacement ∉ cs → bs = cs.flatMap String.utf8EncodeChar ++ back

/-- A byte with which a character may begin is one, or leads to one, or is replaced. -/
theorem exists_spells_lossyStart (b : UInt8) (acc : List Char) :
    ∃ cs back, Spells [b] acc (lossyStart b acc) cs back := by
  unfold lossyStart
  cases hstart : start b with
  | char c => exact ⟨[c], [], rfl, rfl, fun _ => by simp [encodeChar_of_start hstart]⟩
  | lead p => exact ⟨[], [b], rfl, begins_of_start hstart, fun _ => rfl⟩
  | invalid => exact ⟨[replacement], [], rfl, rfl, fun hcs => (hcs (by simp)).elim⟩

/-- What is read of a byte is spelled by the bytes before it, in the same character, and by it. -/
theorem exists_spells_lossyStep {front : Bytes} {s : Option Partial} (h : Inside front s) (b : UInt8)
    (acc : List Char) : ∃ cs back, Spells (front ++ [b]) acc (lossyStep b acc s) cs back := by
  cases s with
  | none =>
      have hfront : front = [] := h
      rw [hfront]
      exact exists_spells_lossyStart b acc
  | some p =>
      have hp : p.Begins front := h
      rw [lossyStep]
      cases hnext : p.next b with
      | char c => exact ⟨[c], [], rfl, rfl, fun _ => by simp [hp.encodeChar hnext]⟩
      | more q => exact ⟨[], front ++ [b], rfl, hp.more hnext, fun _ => rfl⟩
      | refused =>
          -- What was begun is replaced, and the byte is read as if nothing had been.
          obtain ⟨cs, back, hspells⟩ := exists_spells_lossyStart b (replacement :: acc)
          refine ⟨replacement :: cs, back, ?_, hspells.inside, fun hcs => (hcs (by simp)).elim⟩
          rw [hspells.added, List.reverse_cons, List.append_assoc, List.singleton_append]

/-- What the lossy reading adds is what it has read, unless it adds U+FFFD. -/
theorem exists_lossyFrom {front : Bytes} {s : Option Partial} (h : Inside front s) (bs : Bytes)
    (acc : List Char) : ∃ cs, lossyFrom s bs acc = acc.reverse ++ cs ∧
      (replacement ∉ cs → front ++ bs = cs.flatMap String.utf8EncodeChar) := by
  induction bs generalizing s front acc with
  | nil =>
      cases s with
      | none =>
          have hfront : front = [] := h
          exact ⟨[], by simp [lossyFrom], fun _ => by simp [hfront]⟩
      | some p => exact ⟨[replacement], by simp [lossyFrom], fun hcs => (hcs (by simp)).elim⟩
  | cons b bs ih =>
      obtain ⟨cs, back, hspells⟩ := exists_spells_lossyStep h b acc
      obtain ⟨ds, hds, hrest⟩ := ih hspells.inside (lossyStep b acc s).2
      refine ⟨cs ++ ds, ?_, ?_⟩
      · rw [lossyFrom, hds, hspells.added, List.reverse_append, List.reverse_reverse, List.append_assoc]
      · intro hmem
        rw [List.mem_append, not_or] at hmem
        rw [List.flatMap_append, ← hrest hmem.2, ← List.append_assoc, ← hspells.spelled hmem.1,
          List.append_assoc, List.singleton_append]

theorem encode_eq (s : String) : encode s = s.toList.flatMap String.utf8EncodeChar := by
  have hdata : s.toUTF8 = (s.toList.flatMap String.utf8EncodeChar).toByteArray := by
    conv => lhs; rw [← String.ofList_toList (s := s)]
    exact String.toByteArray_ofList
  rw [encode, hdata, Bytes.toList_eq_data, List.toList_data_toByteArray]

theorem toList_decodeLossy (bs : Bytes) : (decodeLossy bs).toList = lossyFrom none bs [] :=
  String.toList_ofList

/-- An encoding is read as the text that it encodes. -/
theorem decodeLossy_encode (s : String) : decodeLossy (encode s) = s := by
  rw [← String.toList_inj, toList_decodeLossy, encode_eq, lossyFrom_flatMap]
  rfl

/-- What is read without U+FFFD is the encoding of what it is read as. -/
theorem encode_decodeLossy {bs : Bytes} (h : replacement ∉ (decodeLossy bs).toList) :
    encode (decodeLossy bs) = bs := by
  have hbetween : Inside [] none := rfl
  obtain ⟨cs, hcs, hspelled⟩ := exists_lossyFrom hbetween bs []
  rw [toList_decodeLossy, hcs] at h
  rw [encode_eq, toList_decodeLossy, hcs]
  exact (hspelled h).symm

theorem decodeLossy_eq_iff {bs : Bytes} {s : String} (h : replacement ∉ s.toList) :
    decodeLossy bs = s ↔ bs = encode s := by
  constructor
  · rintro rfl
    exact (encode_decodeLossy h).symm
  · rintro rfl
    exact decodeLossy_encode s

end JarRank.Utf8
