import JarRank.Proofs.Json.ReadBack
import JarRank.Proofs.Ranking.Magnitude
import JarRank.Ranking.Run
import Mathlib.Data.List.Perm.Basic

/-!
# Reports that are read back

A report has a text unless one of its integers has too many digits. The text is one JSON value in
ASCII, with a line feed behind it and the keys of every object in order. Read again, it is the value
of the report, up to the order of fields, and that value is the report's alone: two reports with one
text are one report.

What the time of the report is read from, its shortest decimal text, is supposed to be right.
-/
namespace JarRank

namespace Json

variable {limit room : Nat} {fields fields' : List (String × Json)}

theorem ofString_injective {s t : String} (h : Text.ofString s = Text.ofString t) : s = t := by
  have hchar : Function.Injective CodePoint.ofChar := by
    intro c d hcd
    have hvalue : c.toNat = d.toNat := congrArg CodePoint.value hcd
    exact Char.toNat_inj.1 hvalue
  exact String.toList_injective (List.map_injective_iff.2 hchar h)

@[simp] theorem text_inj {s t : String} : text s = text t ↔ s = t :=
  ⟨fun h => ofString_injective (string.inj h), fun h => by rw [h]⟩

@[simp] theorem textOrNull_inj : ∀ {s t : Option String}, textOrNull s = textOrNull t ↔ s = t
  | none, none => by simp
  | none, some _ => by simp [textOrNull, text]
  | some _, none => by simp [textOrNull, text]
  | some _, some _ => by simp [textOrNull]

@[simp] theorem texts_inj {ss ts : List String} : texts ss = texts ts ↔ ss = ts := by
  have hmap : Function.Injective (List.map text) :=
    List.map_injective_iff.2 fun _ _ => text_inj.1
  simp [texts, hmap.eq_iff]

theorem not_broken_ofString (s : String) : ¬ (Text.ofString s).Broken := by
  simp [Text.Broken, Text.ofString]

/-! ### Records -/

theorem distinctKeys_of_nodup (h : (fields.map (·.1)).Nodup) :
    DistinctKeys (fields.map fun (key, value) => (Text.ofString key, value)) := by
  have hkeys := h.map fun s t => @ofString_injective s t
  simpa [DistinctKeys, Function.comp_def] using hkeys

theorem everyObject_record (hkeys : (fields.map (·.1)).Nodup)
    (h : ∀ f ∈ fields, EveryObject DistinctKeys f.2) : EveryObject DistinctKeys (record fields) := by
  refine .object (distinctKeys_of_nodup hkeys) fun f hf => ?_
  obtain ⟨g, hg, rfl⟩ := List.mem_map.1 hf
  exact h g hg

theorem legible_record (hkeys : (fields.map (·.1)).Nodup)
    (h : ∀ f ∈ fields, Legible limit room f.2) : Legible limit (room + 1) (record fields) := by
  refine .object (distinctKeys_of_nodup hkeys) (fun f hf => ?_) fun f hf => ?_
  · obtain ⟨g, -, rfl⟩ := List.mem_map.1 hf
    exact not_broken_ofString g.1
  · obtain ⟨g, hg, rfl⟩ := List.mem_map.1 hf
    exact h g hg

theorem field?_record_sorted (hkeys : (fields.map (·.1)).Nodup) {name : String} {v : Json}
    (hmem : (name, v) ∈ fields) : (record fields).sorted.field? name = some v.sorted := by
  have hfield : (record fields).field? name = some v := by
    refine (field?_eq_some_iff (distinctKeys_of_nodup hkeys)).2 ?_
    exact List.mem_map_of_mem (f := fun (key, value) => (Text.ofString key, value)) hmem
  rw [record, field?_sorted (distinctKeys_of_nodup hkeys), ← record, hfield]
  rfl

/-- Records with the same keys in the same order have equal values, if they are equal when sorted. -/
theorem values_eq_of_sorted_eq (h : (record fields).sorted = (record fields').sorted)
    (hkeys : (fields.map (·.1)).Nodup) (hsame : fields.map (·.1) = fields'.map (·.1)) :
    fields.map (·.2.sorted) = fields'.map (·.2.sorted) := by
  have hlength : fields.length = fields'.length := by
    simpa using congrArg List.length hsame
  refine List.ext_getElem (by simpa using hlength) fun i hi hi' => ?_
  rw [List.length_map] at hi hi'
  have hname : fields[i].1 = fields'[i].1 := by
    have hget := congrArg (·[i]?) hsame
    simpa [hi, hi'] using hget
  have hleft : (record fields).sorted.field? fields[i].1 = some fields[i].2.sorted :=
    field?_record_sorted hkeys (List.getElem_mem hi)
  have hright : (record fields').sorted.field? fields'[i].1 = some fields'[i].2.sorted :=
    field?_record_sorted (hsame ▸ hkeys) (List.getElem_mem hi')
  rw [hname, h, hright] at hleft
  simpa using (Option.some.inj hleft).symm

/-! ### The values of a report -/

theorem everyObject_text (s : String) : EveryObject DistinctKeys (text s) :=
  .scalar (by simp [text]) (by simp [text])

theorem everyObject_textOrNull (s : Option String) : EveryObject DistinctKeys (textOrNull s) := by
  cases s with
  | none => exact .scalar (by simp [textOrNull]) (by simp [textOrNull])
  | some s => exact everyObject_text s

theorem everyObject_integer (n : Int) : EveryObject DistinctKeys (.integer n) :=
  .scalar (by simp) (by simp)

theorem everyObject_number (x : Binary64) : EveryObject DistinctKeys (.number x) :=
  .scalar (by simp) (by simp)

theorem everyObject_map {α : Type} {f : α → Json} (h : ∀ a, EveryObject DistinctKeys (f a))
    (xs : List α) : EveryObject DistinctKeys (.array (xs.map f)) := by
  refine .array fun v hv => ?_
  obtain ⟨a, -, rfl⟩ := List.mem_map.1 hv
  exact h a

theorem legible_text (s : String) : Legible limit room (text s) := .string (not_broken_ofString s)

theorem legible_textOrNull (s : Option String) : Legible limit room (textOrNull s) := by
  cases s with
  | none => exact .null
  | some s => exact legible_text s

theorem legible_map {α : Type} {f : α → Json} {xs : List α}
    (h : ∀ a ∈ xs, Legible limit room (f a)) :
    Legible limit (room + 1) (.array (xs.map f)) := by
  refine .array fun v hv => ?_
  obtain ⟨a, ha, rfl⟩ := List.mem_map.1 hv
  exact h a ha

@[simp] theorem sorted_text (s : String) : (text s).sorted = text s := rfl

@[simp] theorem sorted_textOrNull (s : Option String) : (textOrNull s).sorted = textOrNull s := by
  cases s <;> rfl

@[simp] theorem sorted_texts (ss : List String) : (texts ss).sorted = texts ss := by
  rw [texts, sorted_array, List.map_map]
  rfl

@[simp] theorem sorted_integer (n : Int) : (integer n).sorted = integer n := rfl

@[simp] theorem sorted_number (x : Binary64) : (number x).sorted = number x := rfl

/-- Where the items are determined by their sorted values, so is the list of them. -/
theorem eq_of_sorted_map_eq {α : Type} {f : α → Json}
    (hf : ∀ {a b : α}, (f a).sorted = (f b).sorted → a = b) {xs ys : List α}
    (h : (array (xs.map f)).sorted = (array (ys.map f)).sorted) : xs = ys := by
  have hinjective : Function.Injective fun a => (f a).sorted := fun _ _ => hf
  rw [sorted_array, sorted_array, List.map_map, List.map_map] at h
  exact List.map_injective_iff.2 hinjective (array.inj h)

/-- The text of an integer is the text of no other. -/
theorem toString_injective {m n : Int} (h : toString m = toString n) : m = n := by
  have hend : Delimits [] := by simp [Delimits]
  have hm := spells_toString (n := m) (Nat.le_max_left (digitsOf m) (digitsOf n))
  have hn := spells_toString (n := n) (Nat.le_max_right (digitsOf m) (digitsOf n))
  have hread := hm.numeral (numeric_intToString m) hend
  rw [h, hn.numeral (numeric_intToString n) hend] at hread
  cases hread
  rfl

end Json

open Json

variable {limit room : Nat}

theorem Row.everyObject_toJson (m : Row) : EveryObject DistinctKeys m.toJson := by
  refine everyObject_record (by simp) ?_
  simp [everyObject_text, everyObject_integer]

theorem Failure.everyObject_toJson (f : Failure) : EveryObject DistinctKeys f.toJson := by
  refine everyObject_record (by simp) ?_
  simp [everyObject_text, everyObject_textOrNull]

theorem Stats.everyObject_toJson (s : Stats) : EveryObject DistinctKeys s.toJson := by
  refine everyObject_record (by simp) ?_
  simp [everyObject_integer, everyObject_number]

theorem Census.nodup_keys (c : Census) :
    ((c.entries.map fun (n, k) => (toString n, Json.integer k)).map (·.1)).Nodup := by
  have hversions : (c.entries.map (·.1)).Nodup :=
    List.pairwise_map.2 (c.ascending.imp fun h => Int.ne_of_lt h)
  have hkeys := hversions.map fun m n => @toString_injective m n
  simpa [Function.comp_def] using hkeys

theorem Census.everyObject_toJson (c : Census) : EveryObject DistinctKeys c.toJson := by
  refine everyObject_record c.nodup_keys fun f hf => ?_
  obtain ⟨e, -, rfl⟩ := List.mem_map.1 hf
  exact everyObject_integer e.2

theorem Report.everyObject_toJson (r : Report) : EveryObject DistinctKeys r.toJson := by
  refine everyObject_record (by simp) ?_
  simp [everyObject_text, everyObject_textOrNull, Stats.everyObject_toJson,
    Census.everyObject_toJson, texts, everyObject_map everyObject_text,
    everyObject_map Row.everyObject_toJson, everyObject_map Failure.everyObject_toJson]

theorem Row.legible_toJson {m : Row} (h : digitsOf m.size ≤ limit) :
    Legible limit (room + 1) m.toJson := by
  refine legible_record (by simp) ?_
  simp [legible_text, Legible.integer h]

theorem Failure.legible_toJson (f : Failure) : Legible limit (room + 1) f.toJson := by
  refine legible_record (by simp) ?_
  simp [legible_text, legible_textOrNull]

theorem Stats.legible_toJson {s : Stats} (hscanned : digitsOf s.entriesScanned ≤ limit)
    (hfound : digitsOf s.methodsFound ≤ limit) (helapsed : s.elapsed.ReadsBack) :
    Legible limit (room + 1) s.toJson := by
  refine legible_record (by simp) ?_
  simp [Legible.integer hscanned, Legible.integer hfound, Legible.number helapsed]

theorem Census.legible_toJson {c : Census} (h : ∀ e ∈ c.entries, digitsOf e.2 ≤ limit) :
    Legible limit (room + 1) c.toJson := by
  refine legible_record c.nodup_keys fun f hf => ?_
  obtain ⟨e, he, rfl⟩ := List.mem_map.1 hf
  exact .integer (h e he)

theorem Report.legible_toJson {r : Report} (h : r.Fits limit) (helapsed : r.stats.elapsed.ReadsBack) :
    Legible limit (room + 3) r.toJson := by
  have hmethods : Legible limit (room + 2) (.array (r.methods.map Row.toJson)) :=
    legible_map fun m hm => Row.legible_toJson (h.sizes m hm)
  have hfailures : Legible limit (room + 2) (.array (r.failures.map Failure.toJson)) :=
    legible_map fun f _ => f.legible_toJson
  have htexts (ss : List String) : Legible limit (room + 2) (texts ss) :=
    legible_map fun s _ => legible_text s
  refine legible_record (by simp) ?_
  simp [legible_text, legible_textOrNull, hmethods, hfailures, htexts,
    Stats.legible_toJson h.scanned h.found helapsed, Census.legible_toJson h.counts]

/-! ### The report behind a value -/

theorem Row.eq_of_sorted_eq {m m' : Row} (h : m.toJson.sorted = m'.toJson.sorted) : m = m' := by
  have hvalues := values_eq_of_sorted_eq h (by simp) rfl
  cases m
  cases m'
  simpa [Int.ofNat_inj] using hvalues

theorem Failure.eq_of_sorted_eq {f f' : Failure} (h : f.toJson.sorted = f'.toJson.sorted) :
    f = f' := by
  have hvalues := values_eq_of_sorted_eq h (by simp) rfl
  cases f
  cases f'
  simpa using hvalues

theorem Stats.eq_of_sorted_eq {s s' : Stats} (h : s.toJson.sorted = s'.toJson.sorted) : s = s' := by
  have hvalues := values_eq_of_sorted_eq h (by simp) rfl
  cases s
  cases s'
  simpa using hvalues

/-- Counts are determined by their fields in any order, as the versions ascend. -/
theorem Census.eq_of_sorted_eq {c c' : Census} (h : c.toJson.sorted = c'.toJson.sorted) : c = c' := by
  let field (e : Int × Int) : Text × Json := (Text.ofString (toString e.1), .integer e.2)
  have hfields (d : Census) : d.toJson = .object (d.entries.map field) := by
    rw [toJson, record, List.map_map]
    rfl
  have hsorted (d : Census) : (d.entries.map field).map sortedField = d.entries.map field := by
    rw [List.map_map]
    rfl
  have hinjective : Function.Injective field := by
    intro d e hde
    have hversion := toString_injective (ofString_injective (congrArg Prod.fst hde))
    have hcount := integer.inj (congrArg Prod.snd hde)
    exact Prod.ext hversion hcount
  have hperm : c.entries.Perm c'.entries := by
    rw [hfields, hfields, sorted_object, sorted_object, object.injEq] at h
    have hleft := sortedFields_perm (c.entries.map field)
    have hright := sortedFields_perm (c'.entries.map field)
    rw [hsorted] at hleft hright
    rw [h] at hleft
    exact (List.map_perm_map_iff hinjective).1 (hleft.symm.trans hright)
  have hentries : c.entries = c'.entries := by
    refine hperm.eq_of_pairwise (fun d e _ _ hde hed => ?_) c.ascending c'.ascending
    omega
  cases c
  cases c'
  simpa using hentries

theorem Report.eq_of_sorted_eq {r r' : Report} (h : r.toJson.sorted = r'.toJson.sorted) : r = r' := by
  have hvalues := values_eq_of_sorted_eq h (by simp) rfl
  simp only [List.map_cons, List.cons.injEq, sorted_text, sorted_textOrNull, sorted_texts, text_inj,
    textOrNull_inj, texts_inj, List.map_nil, and_true] at hvalues
  obtain ⟨hpackage, hranker, hschema, hprofile, hpath, hdigest, hverdict, hreasons, hmethods, hstats,
    hwarnings, hfailures, hversions, htimestamp⟩ := hvalues
  have hrows := eq_of_sorted_map_eq Row.eq_of_sorted_eq hmethods
  have hcounts := Stats.eq_of_sorted_eq hstats
  have hfaults := eq_of_sorted_map_eq Failure.eq_of_sorted_eq hfailures
  have hcensus := Census.eq_of_sorted_eq hversions
  cases r
  cases r'
  simp_all

/-- Reading the text of a report gives the value of the report, sorted. -/
theorem Report.parse_document {r : Report} (h : r.Fits Numeral.maxDigits)
    (helapsed : r.stats.elapsed.ReadsBack) :
    parse (.ofString r.document) = .ok r.toJson.sorted := by
  -- Of the room for what is nested, a report needs three values at most.
  have hlegible : Legible Numeral.maxDigits (maxDepth - 3 + 3) r.toJson := r.legible_toJson h helapsed
  exact parseWithin_toDocument hlegible

theorem Report.exists_document_eq (r : Report) : ∃ front, r.document = front ++ "\x7d\n" := by
  have hobject : ∃ fs, r.toJson.sorted = .object fs := by
    rw [toJson, record, sorted_object]
    exact ⟨_, rfl⟩
  obtain ⟨fs, hfs⟩ := hobject
  have hlayout : ∃ front, layout 0 r.toJson.sorted = front ++ ['\x7d'] := by
    rw [hfs]
    cases fs with
    | nil =>
        rw [layout]
        exact ⟨['\x7b'], rfl⟩
    | cons f fs =>
        rw [layout]
        simp only [← List.append_assoc, ← List.cons_append]
        exact ⟨_, rfl⟩
  obtain ⟨front, hfront⟩ := hlayout
  refine ⟨String.ofList front, String.toList_injective ?_⟩
  rw [document, toList_toDocument, hfront]
  simp

/-- The document of a report that names its archive begins with the archive's path. -/
theorem Report.exists_document_front {r : Report} {path : String} (h : r.archivePath = some path) :
    ∃ rest, r.document.toList = '\x7b' :: (lineBreak 1 ++ (quoted (Text.ofString "archive_path") ++
      ':' :: ' ' :: (quoted (Text.ofString path) ++ rest))) := by
  obtain ⟨fields, hfields, hdistinct, hmem, hleast⟩ : ∃ fields, r.toJson = .object fields ∧
      DistinctKeys fields ∧ (Text.ofString "archive_path", text path) ∈ fields ∧
        ∀ f ∈ fields, keyLe (Text.ofString "archive_path") f.1 = true := by
    rw [toJson, h]
    refine ⟨_, rfl, distinctKeys_of_nodup (by simp), by simp [textOrNull], ?_⟩
    rw [List.forall_mem_map]
    simp only [List.forall_mem_cons]
    decide +kernel
  obtain ⟨rest, hrest⟩ := exists_sortedFields_eq_cons hdistinct hmem hleast
  rw [document, toList_toDocument, hfields, sorted_object, hrest, sortedField, layout, sorted_text, text,
    layout]
  simp only [List.cons_append, List.append_assoc]
  exact ⟨_, rfl⟩

/-- Reports on archives with two paths have two documents, whatever else they say. -/
theorem Report.archivePath_eq_of_document_eq {r r' : Report} {path path' : String}
    (h : r.archivePath = some path) (h' : r'.archivePath = some path')
    (hdocument : r.document = r'.document) : path = path' := by
  obtain ⟨rest, hfront⟩ := exists_document_front h
  obtain ⟨rest', hfront'⟩ := exists_document_front h'
  rw [hdocument, hfront'] at hfront
  simp only [List.cons.injEq, true_and, List.append_cancel_left_eq] at hfront
  have hquoted := eq_of_quoted_append_eq (not_broken_ofString path') (not_broken_ofString path) hfront
  exact (ofString_injective hquoted).symm

/-- A report has a text if no integer in it has more digits than may be spelled. The text is ASCII
and ends with one line feed. It is read as one value, with the keys of every object ascending, that
is the value of the report but for the order of fields. No other report has it. -/
theorem Report.text_reads_back (r : Report) (h : r.stats.elapsed.ReadsBack) :
    ((∃ text, r.text? = some text) ↔ r.Fits Numeral.maxDigits) ∧
      ∀ text, r.text? = some text →
        IsAscii text.toList ∧ (∃ front, text = front ++ "\x7d\n") ∧
          (∃ v, EveryObject Ascending v ∧ v.Same r.toJson ∧ parse (.ofString text) = .ok v) ∧
          ∀ r' : Report, r'.stats.elapsed.ReadsBack → r'.text? = some text → r' = r := by
  constructor
  · simp only [text?_eq_some_iff, exists_and_left, exists_eq', and_true]
  · intro text htext
    obtain ⟨hfits, rfl⟩ := text?_eq_some_iff.1 htext
    have hread := parse_document hfits h
    refine ⟨isAscii_toDocument r.toJson, r.exists_document_eq, ⟨r.toJson.sorted, ?_, ?_, hread⟩, ?_⟩
    · exact ascending_sorted r.everyObject_toJson
    · exact same_sorted r.toJson
    · intro r' h' htext'
      obtain ⟨hfits', hdocument⟩ := text?_eq_some_iff.1 htext'
      have hread' := parse_document hfits' h'
      rw [hdocument, hread] at hread'
      exact eq_of_sorted_eq (Except.ok.inj hread').symm

/-- A report with characters of every kind in it. -/
def Report.motley : Report where
  profileId := "v0"
  archivePath := some "C:\\\"été\"\t😀.jar"
  verdict := "WARN"
  methods := [⟨"a.B$\x01", "\x7f", "()V\n", 7⟩]
  stats := ⟨2, 1, .finite false 7036874417766400 (-49)⟩
  failures := [⟨"😀.class", "kind", none, ""⟩, ⟨"/", "kind", some "state", "\r\x08\x0c"⟩]
  classVersions := ⟨[(52, 3), (100, 1)], by decide⟩
  timestamp := "2000-01-01T00:00:00+00:00"

/-- It is read back with ascending keys, so that the counts of version 100 are in front of those of
version 52, and a report that differs from it in the verdict alone has another text. -/
theorem Report.text_reads_back_motley :
    motley.stats.elapsed.ReadsBack ∧ ∃ text, motley.text? = some text ∧
      (∃ v, EveryObject Ascending v ∧ v.Same motley.toJson ∧ parse (.ofString text) = .ok v) ∧
      (Report.text? { motley with verdict := "ACCEPT" }) ≠ some text := by
  have helapsed : motley.stats.elapsed.ReadsBack := ⟨rfl, by rfl⟩
  have hfits : motley.Fits Numeral.maxDigits := by
    constructor <;> decide
  obtain ⟨hexists, hback⟩ := text_reads_back motley helapsed
  obtain ⟨text, htext⟩ := hexists.2 hfits
  obtain ⟨-, -, hread, hinjective⟩ := hback text htext
  refine ⟨helapsed, text, htext, hread, fun hother => ?_⟩
  have hequal := hinjective { motley with verdict := "ACCEPT" } helapsed hother
  exact absurd (congrArg Report.verdict hequal) (by decide)

/-- A report on one method, whose size has one digit more than so many. -/
def Report.oversized (digits : Nat) : Report where
  profileId := "p"
  methods := [⟨"a", "b", "c", Nat.pow 10 digits⟩]
  timestamp := "2000-01-01T00:00:00+00:00"

theorem Report.not_fits_oversized (h : 0 < limit) : ¬ (oversized limit).Fits limit := by
  intro hfits
  have hsize := (digitsOf_le_iff h).1 (hfits.sizes _ List.mem_cons_self)
  exact Nat.lt_irrefl _ hsize

/-- A size that has one digit too many keeps a report from having a text, and from being written. -/
theorem Report.oversized_unwritten :
    (oversized Numeral.maxDigits).stats.elapsed.ReadsBack ∧
      (oversized Numeral.maxDigits).text? = none ∧
      ∃ left, Run.write .empty (some (.ofString "out")) (oversized Numeral.maxDigits) =
        .error (.integerTooLong, left) := by
  have htext : (oversized Numeral.maxDigits).text? = none := by
    rw [Option.eq_none_iff_forall_ne_some]
    intro text h
    exact not_fits_oversized (by decide) (text?_eq_some_iff.1 h).1
  have hmade : ∃ left, Files.Tree.empty.makeDirectories (.ofString "out") = .ok left := by
    have hok : (Files.Tree.empty.makeDirectories (.ofString "out")).toOption.isSome = true := by
      decide +kernel
    cases h : Files.Tree.empty.makeDirectories (.ofString "out") with
    | error halted =>
        rw [h] at hok
        cases hok
    | ok left => exact ⟨left, rfl⟩
  obtain ⟨left, hleft⟩ := hmade
  refine ⟨⟨rfl, by rfl⟩, htext, left, ?_⟩
  rw [Run.write, hleft]
  dsimp only
  rw [htext]

end JarRank
