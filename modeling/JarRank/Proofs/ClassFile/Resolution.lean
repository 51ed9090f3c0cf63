import JarRank.ClassFile.Pool

/-!
# What references lead to

An index leads to a text, to the name of a class, or to something else that the
fault names. Each of the three is said of the slots alone: an index from zero
down is outside the table whatever the table holds, and so is one from its size
up. Looking an index up succeeds exactly where the slots say so, and fails with
exactly the fault that is true of them.
-/
namespace JarRank.ClassFile

/-- The kind of constant that is expected. -/
def Expected.kind : Expected → Kind
  | utf8 => .utf8
  | classRef => .classRef

namespace Pool

/-- A constant stands at an index. -/
def Holds (p : Pool) (i : Int) (k : Constant) : Prop := 0 < i ∧ p.slots[i.toNat]? = some (some k)

/-- A text stands at an index. -/
def HasText (p : Pool) (i : Int) (s : String) : Prop := p.Holds i (.utf8 s)

/-- A class reference stands at an index, and it leads to the text. -/
def HasClass (p : Pool) (i : Int) (s : String) : Prop :=
  ∃ n : Nat, p.Holds i (.classRef n) ∧ p.HasText n s

/-- An index does not lead to a constant of the expected kind, but to what was found. -/
inductive Lacks (p : Pool) (i : Int) : Expected → Finding → Prop
  | outOfRange (x : Expected) : i ≤ 0 ∨ p.size ≤ i → Lacks p i x .outOfRange
  | emptySlot (x : Expected) : 0 < i → p.slots[i.toNat]? = some none → Lacks p i x .emptySlot
  | holds (x : Expected) (k : Constant) : p.Holds i k → k.kind ≠ x.kind → Lacks p i x (.holds k.kind)

/-- A fault that a missing text at an index gives. -/
def TextFault (p : Pool) (i : Int) (e : Fault) : Prop :=
  ∃ found, p.Lacks i .utf8 found ∧ e = .badReference i .utf8 found

/-- A fault that a missing class name at an index gives, there or where its name should be. -/
def ClassFault (p : Pool) (i : Int) (e : Fault) : Prop :=
  (∃ found, p.Lacks i .classRef found ∧ e = .badReference i .classRef found) ∨
    ∃ n : Nat, p.Holds i (.classRef n) ∧ p.TextFault n e

variable {p : Pool} {i : Int}

instance (k : Constant) : Decidable (p.Holds i k) := inferInstanceAs (Decidable (_ ∧ _))

instance (s : String) : Decidable (p.HasText i s) := inferInstanceAs (Decidable (_ ∧ _))

theorem Holds.unique {k l : Constant} (h : p.Holds i k) (h' : p.Holds i l) : k = l := by
  have hs := h.2.symm.trans h'.2
  simpa using hs

theorem HasText.unique {s t : String} (h : p.HasText i s) (h' : p.HasText i t) : s = t := by
  simpa using Holds.unique h h'

theorem find_eq_ok_iff {k : Constant} : p.find i = .ok k ↔ p.Holds i k := by
  unfold find Holds
  by_cases hi : i ≤ 0
  · have hn : ¬ 0 < i := by omega
    simp [hi, hn]
  · have hp : 0 < i := by omega
    rw [if_neg hi]
    rcases p.slots[i.toNat]? with _ | _ | l <;> simp [hp]

theorem find_eq_error_iff {found : Finding} :
    p.find i = .error found ↔
      (found = .outOfRange ∧ (i ≤ 0 ∨ p.size ≤ i)) ∨
        (found = .emptySlot ∧ 0 < i ∧ p.slots[i.toNat]? = some none) := by
  unfold find
  by_cases hi : i ≤ 0
  · have hn : ¬ 0 < i := by omega
    simp [hi, hn, eq_comm]
  · have hp : 0 < i := by omega
    have hr : p.slots[i.toNat]? = none ↔ (p.size : Int) ≤ i := by
      rw [Array.getElem?_eq_none_iff]
      unfold size
      omega
    rw [if_neg hi]
    cases hs : p.slots[i.toNat]? with
    | none => simp [hp, hr.1 hs, eq_comm]
    | some slot =>
        have hr' : ¬ (p.size : Int) ≤ i := by
          rw [← hr, hs]
          simp
        cases slot <;> simp [hi, hp, hr', eq_comm]

/-- An index lacks what is expected if nothing is found there, or a constant of another kind. -/
theorem lacks_iff_find {x : Expected} {found : Finding} :
    p.Lacks i x found ↔
      p.find i = .error found ∨
        ∃ k, p.find i = .ok k ∧ k.kind ≠ x.kind ∧ found = .holds k.kind := by
  constructor
  · intro h
    cases h with
    | outOfRange hr => exact .inl (find_eq_error_iff.2 (.inl ⟨rfl, hr⟩))
    | emptySlot hp hs => exact .inl (find_eq_error_iff.2 (.inr ⟨rfl, hp, hs⟩))
    | holds k hk hx => exact .inr ⟨k, find_eq_ok_iff.2 hk, hx, rfl⟩
  · intro h
    rcases h with h | ⟨k, hk, hx, rfl⟩
    · rcases find_eq_error_iff.1 h with ⟨rfl, hr⟩ | ⟨rfl, hp, hs⟩
      · exact .outOfRange x hr
      · exact .emptySlot x hp hs
    · exact .holds x k (find_eq_ok_iff.1 hk) hx

theorem text_eq_ok_iff {s : String} : p.text i = .ok s ↔ p.HasText i s := by
  unfold text HasText
  rw [← find_eq_ok_iff]
  rcases p.find i with found | k
  · simp
  · cases k <;> simp

theorem text_eq_error_iff {e : Fault} : p.text i = .error e ↔ p.TextFault i e := by
  unfold text TextFault
  simp only [lacks_iff_find]
  rcases p.find i with found | k
  · simp [eq_comm]
  · cases k <;> simp [Constant.kind, Expected.kind, eq_comm]

theorem className_eq_ok_iff {s : String} : p.className i = .ok s ↔ p.HasClass i s := by
  unfold className HasClass
  simp only [← find_eq_ok_iff]
  rcases p.find i with found | k
  · simp
  · cases k <;> simp [text_eq_ok_iff]

theorem className_eq_error_iff {e : Fault} : p.className i = .error e ↔ p.ClassFault i e := by
  unfold className ClassFault
  simp only [lacks_iff_find, ← find_eq_ok_iff]
  rcases p.find i with found | k
  · simp [eq_comm]
  · cases k with
    | classRef n => simp [Constant.kind, Expected.kind, text_eq_error_iff]
    | _ => simp [Constant.kind, Expected.kind, eq_comm]

end Pool
end JarRank.ClassFile
