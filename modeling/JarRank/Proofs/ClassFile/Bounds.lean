import JarRank.Proofs.ClassFile.RoundTrip

/-!
# How large numbers in a summary are

The version of a class file is one word, and so is the number of its methods. The size of a
method is zero or what four bytes of an attribute spell. This is read off the layout that a
summary describes.
-/
namespace JarRank.ClassFile

variable {code : String}

theorem Attribute.codeLength_lt (a : Attribute) : a.codeLength < 0x100000000 := by
  have hlt := Bytes.bigEndian_lt ((a.body.drop 4).take 4)
  have hlen : ((a.body.drop 4).take 4).length ≤ 4 := by
    rw [List.length_take]
    omega
  have hcap : Bytes.capacity ((a.body.drop 4).take 4).length ≤ 0x100000000 := by
    generalize ((a.body.drop 4).take 4).length = n at hlen
    have hn : ∀ n ≤ 4, Bytes.capacity n ≤ 0x100000000 := by decide
    exact hn n hlen
  exact Nat.lt_of_lt_of_le hlt hcap

theorem Member.codeSize_lt (p : Pool) (m : Member) : m.codeSize p code < 0x100000000 := by
  unfold codeSize
  cases (m.attributes.filter fun a => p.HasText a.nameIndex.toNat code).getLast? with
  | none => decide
  | some a => exact a.codeLength_lt

namespace Summary

/-- The version and the number of methods are words, and every size is that of four bytes. -/
structure Bounded (s : Summary) : Prop where
  major_lt : s.major < 0x10000
  length_lt : s.methods.length < 0x10000
  size_lt : ∀ m ∈ s.methods, m.size < 0x100000000

theorem bounded_of_describes {l : Layout} {s : Summary} (hf : l.Fits)
    (h : l.Describes code s) : s.Bounded where
  major_lt := by
    rw [h.major]
    exact l.major.toNat_lt
  length_lt := by
    rw [← h.methods.length_eq]
    exact hf.methods.1
  size_lt := by
    intro m hm
    obtain ⟨i, hi, rfl⟩ := List.mem_iff_getElem.1 hm
    have hd := h.methods.get (h.methods.length_eq ▸ hi) hi
    rw [List.get_eq_getElem, List.get_eq_getElem] at hd
    rw [hd.size]
    exact Member.codeSize_lt _ _

theorem bounded_of_decode {data : Bytes} {s : Summary} (h : decode data code = .ok s) :
    s.Bounded := by
  rw [decode_eq] at h
  obtain ⟨d, hd⟩ : ∃ d, read code (Cursor.ofBytes data 0) = (.ok s, d) := ⟨_, Prod.ext h rfl⟩
  obtain ⟨_, ⟨l, ⟨hf, _⟩, hl, _⟩, _⟩ := (accepts_read code).sound hd
  exact bounded_of_describes hf hl

end Summary
end JarRank.ClassFile
