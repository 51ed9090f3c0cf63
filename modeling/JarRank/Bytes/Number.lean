/-!
# Bytes and the numbers they spell

A byte sequence is a list. Two facts about it are used everywhere: the number a
few bytes spell, in either order, and the rest of a sequence behind a given
number of bytes, which exists exactly when there are that many. An array of bytes
is read as the list of its data.
-/
namespace JarRank

/-- Bytes in reading order. -/
abbrev Bytes := List UInt8

namespace Bytes

/-- The number whose base-256 digits are the bytes, most significant first. -/
def bigEndian (bs : Bytes) : Nat := bs.foldl (fun n b => n * 256 + b.toNat) 0

/-- The number whose base-256 digits are the bytes, least significant first. -/
def littleEndian : Bytes → Nat
  | [] => 0
  | b :: bs => b.toNat + 256 * littleEndian bs

@[simp] theorem bigEndian_nil : bigEndian [] = 0 := rfl

theorem bigEndian_append_singleton (bs : Bytes) (b : UInt8) :
    bigEndian (bs ++ [b]) = bigEndian bs * 256 + b.toNat := by
  simp [bigEndian]

/-- How many numbers that many bytes can spell. -/
def capacity : Nat → Nat
  | 0 => 1
  | width + 1 => 256 * capacity width

theorem littleEndian_lt (bs : Bytes) : littleEndian bs < capacity bs.length := by
  induction bs with
  | nil => simp [littleEndian, capacity]
  | cons b bs ih =>
      have hb := b.toNat_lt
      simp only [littleEndian, List.length_cons, capacity]
      omega

/-- The last `width` base-256 digits of a number, most significant first. -/
def ofNumber : (width : Nat) → Nat → Bytes
  | 0, _ => []
  | width + 1, n => ofNumber width (n / 256) ++ [UInt8.ofNat n]

@[simp] theorem length_ofNumber (width n : Nat) : (ofNumber width n).length = width := by
  induction width generalizing n with
  | zero => rfl
  | succ width ih => simp [ofNumber, ih]

theorem bigEndian_ofNumber (width n : Nat) : bigEndian (ofNumber width n) = n % capacity width := by
  induction width generalizing n with
  | zero => simp [ofNumber, capacity, Nat.mod_one]
  | succ width ih =>
      have hb : (UInt8.ofNat n).toNat = n % 256 := UInt8.toNat_ofNat' ..
      rw [ofNumber, bigEndian_append_singleton, ih, hb, capacity, Nat.mod_mul]
      omega

theorem bigEndian_ofNumber_of_lt {width n : Nat} (h : n < capacity width) :
    bigEndian (ofNumber width n) = n := by
  rw [bigEndian_ofNumber, Nat.mod_eq_of_lt h]

/-- What follows the first `n` bytes, if there are that many. -/
def drop? : Nat → Bytes → Option Bytes
  | 0, bs => some bs
  | _ + 1, [] => none
  | n + 1, _ :: bs => drop? n bs

theorem drop?_eq_some_iff {n : Nat} {bs rest : Bytes} :
    drop? n bs = some rest ↔ n ≤ bs.length ∧ rest = bs.drop n := by
  induction bs generalizing n with
  | nil => cases n <;> simp [drop?, eq_comm]
  | cons b bs ih =>
      cases n with
      | zero => simp [drop?, eq_comm]
      | succ n => simp [drop?, ih]

theorem drop?_eq_none_iff {n : Nat} {bs : Bytes} : drop? n bs = none ↔ bs.length < n := by
  induction bs generalizing n with
  | nil => cases n <;> simp [drop?]
  | cons b bs ih =>
      cases n with
      | zero => simp [drop?]
      | succ n => simp [drop?, ih]

/-- The first `n` bytes and what follows them, if there are that many. -/
def split? (n : Nat) (bs : Bytes) : Option (Bytes × Bytes) :=
  (drop? n bs).map fun rest => (bs.take n, rest)

/-- The last index at which `part` starts in `bs`. -/
def lastIndexOf? (part : Bytes) (bs : Bytes) : Option Nat := go bs 0 none
where
  go : Bytes → Nat → Option Nat → Option Nat
    | [], i, found => if part.isEmpty then some i else found
    | b :: bs, i, found => go bs (i + 1) (if part.isPrefixOf (b :: bs) then some i else found)

/-- As a list, the bytes of an array are its data. -/
theorem toList_eq_data (bs : ByteArray) : bs.toList = bs.data.toList := by
  -- The loop gathers the bytes from an index on, behind those that it has.
  have hloop : ∀ (n i : Nat) (front : List UInt8), bs.size - i = n →
      ByteArray.toList.loop bs i front = front.reverse ++ bs.data.toList.drop i := by
    intro n
    induction n with
    | zero =>
        intro i front hn
        have hlen : bs.data.toList.length ≤ i := Nat.le_of_sub_eq_zero hn
        rw [ByteArray.toList.loop, if_neg (Nat.not_lt.2 (Nat.le_of_sub_eq_zero hn)),
          List.drop_eq_nil_of_le hlen, List.append_nil]
    | succ n ih =>
        intro i front hn
        have hi : i < bs.size := by omega
        have hlen : i < bs.data.toList.length := hi
        have hget : bs.get! i = bs.data.toList[i] := by
          simp only [ByteArray.get!, Array.getElem_toList]
          exact getElem!_pos bs.data i hi
        rw [ByteArray.toList.loop, if_pos hi, ih (i + 1) _ (by omega), List.reverse_cons,
          List.append_assoc, List.drop_eq_getElem_cons hlen, hget, List.singleton_append]
  exact hloop bs.size 0 [] rfl

end Bytes
end JarRank
