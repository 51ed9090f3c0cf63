import JarRank.Proofs.ClassFile.Influence
import JarRank.Proofs.ClassFile.RoundTrip

/-!
# What a verdict depends on

The result of decoding, or the fault and its section, depends on the bytes that are used
and on nothing else. Other bytes in the place of those that are skipped, or behind the
point where the decoder stops, leave it as it is. So do further bytes behind the file,
with one exception: a fault that says that there are too few bytes.
-/
namespace JarRank.ClassFile

namespace Traced

/-- The traced decoder is the decoder. -/
theorem run_summary (code : String) (c : Cursor) :
    (summary code).run c = Summary.read code c := by
  have ha : Agree ((summary code).marks c) c.rest c.rest :=
    .refl ((summary code).length_marks_le c)
  rcases Follows.summary code c c rfl ha with ⟨hend, hstop⟩ | ⟨hne, _⟩
  · apply Prod.ext
    · exact hend.eq
    · rw [hstop]
      exact (summary code).stops c
  · exact (hne rfl).elim

end Traced

namespace Summary

variable {code : String} {data data' : Bytes}

theorem length_marks_le (data : Bytes) (code : String) :
    ((Traced.summary code).marks (Cursor.ofBytes data 0)).length ≤ data.length :=
  (Traced.summary code).length_marks_le _

/-- Two files with the same bytes where the first one is used are decoded alike, unless the first
has too few bytes and the second has more or fewer. -/
theorem read_of_agree
    (h : Agree ((Traced.summary code).marks (Cursor.ofBytes data 0)) data data') :
    (decode data' code = decode data code ∧ (read code (Cursor.ofBytes data' 0)).2.position =
        (read code (Cursor.ofBytes data 0)).2.position) ∨
      (data'.length ≠ data.length ∧ ∃ e, decode data code = .error e ∧ e.Truncates) := by
  have hfollows := Follows.summary code (.ofBytes data 0) (.ofBytes data' 0) rfl h
  have hstop := (Traced.summary code).stops (.ofBytes data 0)
  rw [Traced.run_summary] at hfollows hstop
  rw [decode_eq, decode_eq]
  rcases hfollows with ⟨hend, hd⟩ | hshort
  · refine .inl ⟨hend.eq.symm, ?_⟩
    rw [hd, hstop]
    rfl
  · exact .inr hshort

/-- Bytes behind a file change neither a result, nor how much of the file is passed for it, nor a
fault that says something else than that there are too few bytes. -/
theorem decode_append (data t : Bytes) (code : String) :
    (∀ s, decode data code = .ok s → decode (data ++ t) code = .ok s ∧
      (read code (Cursor.ofBytes (data ++ t) 0)).2.position =
        (read code (Cursor.ofBytes data 0)).2.position) ∧
    (∀ e, decode data code = .error e →
      e.fault.kind ∈ ["BAD_MAGIC", "UNKNOWN_CONSTANT_TAG", "INVALID_REFERENCE"] →
        decode (data ++ t) code = .error e) ∧
    (decode (data ++ t) code ≠ decode data code →
      ∃ e, decode data code = .error e ∧ e.fault.kind = "TRUNCATED") := by
  have hlen := length_marks_le data code
  have ha : Agree ((Traced.summary code).marks (Cursor.ofBytes data 0)) data (data ++ t) := by
    constructor
    · rw [List.length_append]
      omega
    · intro i hi
      have hlt := (List.getElem?_eq_some_iff.1 hi).1
      exact List.getElem?_append_left (by omega)
  have hread := read_of_agree ha
  refine ⟨?_, ?_, ?_⟩
  · intro s hs
    rcases hread with ⟨hd, hp⟩ | ⟨_, e, he, _⟩
    · exact ⟨hd.trans hs, hp⟩
    · rw [hs] at he
      cases he
  · intro e he hkind
    rcases hread with ⟨hd, _⟩ | ⟨_, e', he', htrunc⟩
    · exact hd.trans he
    · rw [he] at he'
      cases he'
      have hshort : e.fault.kind = "TRUNCATED" := htrunc
      rw [hshort] at hkind
      simp at hkind
  · intro hne
    rcases hread with ⟨hd, _⟩ | ⟨_, e, he, htrunc⟩
    · exact (hne hd).elim
    · exact ⟨e, he, htrunc⟩

theorem decode_append_sample :
    decode (Layout.sample.bytes ++ [0xCA, 0xFE]) "Code" = .ok ⟨"A", 52, 0, [⟨"m", "()V", 1⟩]⟩ ∧
      decode ([0xCA, 0xFE, 0xBA, 0xBE, 0, 0, 0, 52, 0, 2, 2] ++ [1, 0]) "Code" =
        .error ⟨.pool, .unknownTag 2 1 10⟩ := by
  have hsample : decode Layout.sample.bytes "Code" = .ok ⟨"A", 52, 0, [⟨"m", "()V", 1⟩]⟩ := by
    have h := decode_of_describes Layout.sample_fits Layout.sample_codeFits
      Layout.sample_describes []
    rwa [List.append_nil] at h
  have htag : decode [0xCA, 0xFE, 0xBA, 0xBE, 0, 0, 0, 52, 0, 2, 2] "Code" =
      .error ⟨.pool, .unknownTag 2 1 10⟩ := rfl
  constructor
  · exact ((decode_append _ [0xCA, 0xFE] "Code").1 _ hsample).1
  · exact (decode_append _ [1, 0] "Code").2.1 _ htag (by decide)

/-- What stands where the decoder uses nothing, or behind the point where it stops, has no influence
on the result or on the fault. -/
theorem decode_eq_of_agree (hl : data'.length = data.length)
    (h : ∀ i : Nat, ¬ Skips data code i → data'[i]? = data[i]?) :
    decode data' code = decode data code := by
  have hlen := length_marks_le data code
  have ha : Agree ((Traced.summary code).marks (Cursor.ofBytes data 0)) data data' := by
    refine ⟨by omega, fun i hi => h i ?_⟩
    intro hskips
    exact hskips hi
  rcases read_of_agree ha with ⟨hd, _⟩ | ⟨hne, _⟩
  · exact hd
  · exact (hne hl).elim

/-- A class file with one byte wherever the decoder uses none, and with an index for the name of
its method. -/
def filled (name x : UInt8) : Bytes := [
  0xCA, 0xFE, 0xBA, 0xBE, 0, 0, 0, 52, 0, 8, 1, 0, 1, 0x41, 7, 0, 1, 1, 0, 1, 0x6D,
  1, 0, 3, 0x28, 0x29, 0x56, 1, 0, 4, 0x43, 0x6F, 0x64, 0x65, 12, x, x, x, x, 3, x, x, x, x,
  x, x, 0, 2, x, x, 0, 1, x, x, 0, 1, x, x, x, x, x, x, 0, 1, x, x, 0, 0, 0, 2, x, x,
  0, 1, x, x, 0, name, 0, 4, 0, 2, 0, 5, 0, 0, 0, 10, x, x, x, x, 0, 0, 0, 1, x, x,
  0, 3, 0, 0, 0, 1, x, 0, 1, x, x, 0, 0, 0, 1, x, x, x]

/-- The bytes of such a file that are the same for every filling are used. -/
def fillMarks (name : UInt8) : List Mark :=
  ((filled name 0).zip (filled name 1)).map fun p => if p.1 = p.2 then .used else .skipped

/-- Behind the method with no name nothing is read. -/
theorem marks_filled :
    (Traced.summary "Code").marks (Cursor.ofBytes (filled 3 0) 0) = (fillMarks 3).take 114 ∧
      (Traced.summary "Code").marks (Cursor.ofBytes (filled 9 0) 0) = (fillMarks 9).take 80 := by
  constructor
  · decide +kernel
  · decide +kernel

theorem decode_eq_of_agree_filled :
    ((filled 3 0xFF).length = (filled 3 0).length ∧
      (∀ i : Nat, ¬ Skips (filled 3 0) "Code" i → (filled 3 0xFF)[i]? = (filled 3 0)[i]?) ∧
      decode (filled 3 0) "Code" = .ok ⟨"A", 52, 0, [⟨"m", "()V", 1⟩]⟩ ∧
      decode (filled 3 0xFF) "Code" = decode (filled 3 0) "Code") ∧
    (filled 9 0xFF).length = (filled 9 0).length ∧
      (∀ i : Nat, ¬ Skips (filled 9 0) "Code" i → (filled 9 0xFF)[i]? = (filled 9 0)[i]?) ∧
      decode (filled 9 0) "Code" = .error ⟨.methods, .badReference 9 .utf8 .outOfRange⟩ ∧
      decode (filled 9 0xFF) "Code" = decode (filled 9 0) "Code" := by
  have hok : Agree ((fillMarks 3).take 114) (filled 3 0) (filled 3 0xFF) := by decide +kernel
  have hbad : Agree ((fillMarks 9).take 80) (filled 9 0) (filled 9 0xFF) := by decide +kernel
  rw [← marks_filled.1] at hok
  rw [← marks_filled.2] at hbad
  have hused : ∀ i : Nat, ¬ Skips (filled 3 0) "Code" i →
      (filled 3 0xFF)[i]? = (filled 3 0)[i]? := fun i hi => hok.2 i (not_not.1 hi)
  have hused' : ∀ i : Nat, ¬ Skips (filled 9 0) "Code" i →
      (filled 9 0xFF)[i]? = (filled 9 0)[i]? := fun i hi => hbad.2 i (not_not.1 hi)
  have hdecode : decode (filled 3 0) "Code" = .ok ⟨"A", 52, 0, [⟨"m", "()V", 1⟩]⟩ := by
    rw [decode_eq]
    decide +kernel
  have hdecode' : decode (filled 9 0) "Code" =
      .error ⟨.methods, .badReference 9 .utf8 .outOfRange⟩ := by
    rw [decode_eq]
    decide +kernel
  exact ⟨⟨rfl, hused, hdecode, decode_eq_of_agree rfl hused⟩, rfl, hused', hdecode',
    decode_eq_of_agree rfl hused'⟩

end Summary
end JarRank.ClassFile
