import JarRank.Proofs.Ranking.Consistency
import JarRank.Ranking.Document
import Mathlib.Data.Nat.Digits.Defs

/-!
# How long the integers of a report are

A report has a text only if none of its integers has too many digits. Such a report can be filled
in by hand, but no run makes one. Its archive has a directory whose size is a number of eight
bytes, and each member takes some of them; a class file has fewer methods than a word can count,
and each of these has a size of four bytes. Even the number of all methods has 25 digits at most.
-/
namespace JarRank

namespace Json

variable {limit : Nat}

theorem areSpelled_iff {vs : List Json} :
    areSpelled limit vs = true ↔ ∀ v ∈ vs, v.isSpelled limit = true := by
  induction vs with
  | nil => simp [areSpelled]
  | cons v vs ih => simp [areSpelled, ih]

theorem fieldsAreSpelled_iff {fs : List (Text × Json)} :
    fieldsAreSpelled limit fs = true ↔ ∀ f ∈ fs, f.2.isSpelled limit = true := by
  induction fs with
  | nil => simp [fieldsAreSpelled]
  | cons f fs ih => simp [fieldsAreSpelled, ih]

@[simp] theorem isSpelled_array {vs : List Json} :
    (array vs).isSpelled limit = true ↔ ∀ v ∈ vs, v.isSpelled limit = true := by
  rw [isSpelled, areSpelled_iff]

@[simp] theorem isSpelled_record {fields : List (String × Json)} :
    (record fields).isSpelled limit = true ↔ ∀ f ∈ fields, f.2.isSpelled limit = true := by
  rw [record, isSpelled, fieldsAreSpelled_iff, List.forall_mem_map]

@[simp] theorem isSpelled_integer {n : Int} :
    (integer n).isSpelled limit = true ↔ digitsOf n ≤ limit := by
  simp [isSpelled]

@[simp] theorem isSpelled_number (x : Binary64) : (number x).isSpelled limit = true := by
  simp [isSpelled]

@[simp] theorem isSpelled_text (s : String) : (text s).isSpelled limit = true := by
  simp [text, isSpelled]

@[simp] theorem isSpelled_textOrNull (s : Option String) :
    (textOrNull s).isSpelled limit = true := by
  cases s <;> simp [textOrNull, isSpelled]

@[simp] theorem isSpelled_texts (ss : List String) : (texts ss).isSpelled limit = true := by
  simp [texts]

theorem digitsOf_le_iff {n : Int} (h : 0 < limit) : digitsOf n ≤ limit ↔ n.natAbs < 10 ^ limit :=
  Nat.length_toDigits_le_iff (by decide) h

theorem digitsOf_le {n : Int} (h : n.natAbs < 0x100000000000000000000) :
    digitsOf n ≤ Numeral.maxDigits := by
  have hpower : (0x100000000000000000000 : Nat) < 10 ^ 25 := by decide
  exact ((digitsOf_le_iff (by decide)).2 (h.trans hpower)).trans (by decide)

end Json

open Json

namespace Report

variable {limit : Nat} {r : Report}

/-- No integer in a report has more than `limit` digits. -/
structure Fits (limit : Nat) (r : Report) : Prop where
  sizes : ∀ m ∈ r.methods, digitsOf m.size ≤ limit
  scanned : digitsOf r.stats.entriesScanned ≤ limit
  found : digitsOf r.stats.methodsFound ≤ limit
  versions : ∀ e ∈ r.classVersions.entries, digitsOf e.1 ≤ limit
  counts : ∀ e ∈ r.classVersions.entries, digitsOf e.2 ≤ limit

theorem isSpelled_iff : r.isSpelled limit = true ↔ r.Fits limit := by
  have hcensus : r.classVersions.toJson.isSpelled limit = true ↔
      ∀ e ∈ r.classVersions.entries, digitsOf e.2 ≤ limit := by
    rw [Census.toJson, isSpelled_record, List.forall_mem_map]
    simp only [isSpelled_integer]
  have hvalue : r.toJson.isSpelled limit = true ↔ (∀ m ∈ r.methods, digitsOf m.size ≤ limit) ∧
      (digitsOf r.stats.entriesScanned ≤ limit ∧ digitsOf r.stats.methodsFound ≤ limit) ∧
        ∀ e ∈ r.classVersions.entries, digitsOf e.2 ≤ limit := by
    simp [toJson, Row.toJson, Failure.toJson, Stats.toJson, hcensus]
  have hversions : (r.classVersions.entries.all fun e => digitsOf e.1 ≤ limit) = true ↔
      ∀ e ∈ r.classVersions.entries, digitsOf e.1 ≤ limit := by simp
  rw [isSpelled, Bool.and_eq_true, hvalue, hversions]
  constructor
  · intro h
    obtain ⟨⟨hsizes, ⟨hscanned, hfound⟩, hcounts⟩, hall⟩ := h
    exact ⟨hsizes, hscanned, hfound, hall, hcounts⟩
  · intro h
    exact ⟨⟨h.sizes, ⟨h.scanned, h.found⟩, h.counts⟩, h.versions⟩

/-- A report has a text exactly if its integers can be spelled. -/
theorem text?_eq_some_iff {text : String} :
    r.text? = some text ↔ r.Fits Numeral.maxDigits ∧ r.document = text := by
  rw [text?, ← isSpelled_iff]
  split <;> simp_all

end Report

/-! ### What can be counted -/

theorem Census.le_total {es : List (Int × Int)} (h : ∀ e ∈ es, 1 ≤ e.2) :
    0 ≤ total es ∧ ∀ e ∈ es, e.2 ≤ total es := by
  induction es with
  | nil => exact ⟨Int.le_refl 0, nofun⟩
  | cons d es ih =>
      obtain ⟨hd, hes⟩ := List.forall_mem_cons.1 h
      obtain ⟨hnonneg, hle⟩ := ih hes
      rw [total_cons]
      refine ⟨by omega, fun e he => ?_⟩
      rcases List.mem_cons.1 he with rfl | he
      · omega
      · have hlast := hle e he
        omega

theorem Entry.length_rows_lt (code : String) (e : Entry) : (e.rows code).length < 0x10000 := by
  unfold rows
  split
  · next s hs =>
    rw [List.length_map]
    exact (bounded_of_summary? hs).length_lt
  · decide

theorem Entry.length_flatMap_rows_le (code : String) (es : List Entry) :
    (es.flatMap (Entry.rows code)).length ≤ 0x10000 * es.length := by
  induction es with
  | nil => exact Nat.zero_le _
  | cons e es ih =>
      have hlt := e.length_rows_lt code
      rw [List.flatMap_cons, List.length_append, List.length_cons]
      omega

namespace Report

/-- What is counted in class files can be spelled, however the times are told. -/
theorem fits_ofEntries (clock : Clock) (profile : Profile) {es : List Entry}
    (hes : ∀ e ∈ es, e.Contained) (hlength : es.length < 0x10000000000000000) :
    (ofEntries clock profile es).Fits Numeral.maxDigits := by
  have hconsistent := consistent_ofEntries clock profile hes
  have hcovers := covers_ofEntries clock profile es
  have hfound := Entry.length_flatMap_rows_le profile.codeAttribute es
  have hscanned := hcovers.entriesScanned
  have hcounts := (Census.le_total fun e he => (hconsistent.versions e he).2.2).2
  have htotal := hconsistent.scanned
  exact {
    sizes := fun m hm => by
      have hlt := hconsistent.sizes m hm
      exact digitsOf_le (by omega)
    scanned := digitsOf_le (by omega)
    found := by
      have hmethods := hcovers.methodsFound
      exact digitsOf_le (by omega)
    versions := fun e he => by
      obtain ⟨hnonneg, hlt, -⟩ := hconsistent.versions e he
      exact digitsOf_le (by omega)
    counts := fun e he => by
      have hle := hcounts e he
      have hone := (hconsistent.versions e he).2.2
      exact digitsOf_le (by omega) }

theorem fits_rejected (now profileId message : String) :
    (rejected now profileId message).Fits Numeral.maxDigits := by
  constructor <;> simp [rejected, Census.empty] <;> decide

end Report

theorem Zip.Archive.length_lt_of_list {data : ByteArray} {a : Zip.Archive} {ms : List Zip.Member}
    (ho : (ofBytes data).enter = (.ok (), a)) (hl : a.list = .ok ms) :
    ms.length < 0x10000000000000000 := by
  obtain ⟨ms', hread, rfl⟩ := enter_eq_ok_iff.1 ho
  unfold list at hl
  dsimp only at hl
  split at hl
  · cases hl
  · cases hl
    exact Zip.Directory.length_lt_of_read hread

theorem Analysis.fits {host : Host} {profile : Profile} {data : ByteArray} {r : Report}
    (h : (ofBytes host profile data).result = .ok r) : r.Fits Numeral.maxDigits := by
  unfold ofBytes at h
  split at h
  · cases h
  · next archive ho =>
    split at h
    · cases h
    · next ms hl =>
      have hresult := Except.mapError_eq_ok_iff.1 h
      have hlength := Zip.Archive.length_lt_of_list ho hl
      have hselected : (entries host.unpackers profile archive ms).length ≤ ms.length := by
        rw [entries, List.length_map]
        exact List.length_filter_le _ _
      rw [Aggregation.eq_of_result hresult]
      exact Report.fits_ofEntries _ profile (Aggregation.contained_of_result hresult) (by omega)

namespace Run

theorem fits_report {host : Host} {o : Order} {data : ByteArray} {r : Report}
    (h : (report host o data).1 = .ok r) : r.Fits Numeral.maxDigits := by
  unfold report at h
  dsimp only at h
  split at h
  · cases h
    exact Report.fits_rejected _ _ _
  · exact Analysis.fits h

end Run
end JarRank
