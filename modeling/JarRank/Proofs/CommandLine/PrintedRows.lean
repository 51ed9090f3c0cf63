import JarRank.Proofs.CommandLine.FailingSessions
import JarRank.Proofs.Ranking.Limits

/-!
# Rows that are printed

A session prints the first rows of a ranking, as many as it was asked for, each on a line
with its number. How many these are is a matter of the output alone: the status, what is
told apart from the output, and the file with the report, which has all the methods, are the
same for every amount that is not below zero. At another time only what the clock tells is
another: the time that was taken, and the date of the report in the file.
-/
namespace JarRank.CommandLine

open Files (Tree)

variable {host : Host} {u : Zip.Unpackers} {clock clock' : Clock} {tree : Tree} {a a' : Arguments}
  {full : Report} {n : Int}

theorem Amount.rows_number (hn : 0 ≤ n) (methods : List Row) :
    (Amount.number n).rows methods = .ok (Run.kept (some n) methods) := by
  have hneg : ¬ n < 0 := Int.not_lt.2 hn
  simp [Amount.rows, Row.top, hneg, Run.kept]

/-- The line of each row has the row's number, from one on. -/
theorem exists_lines (rows : List Row) :
    ∃ lines : List String, ranking rows = String.join lines ∧ lines.length = rows.length ∧
      ∀ i m, rows[i]? = some m → lines[i]? = some (rowLine (i + 1) m) := by
  refine ⟨_, rfl, by simp, fun i m hm => ?_⟩
  simp [List.getElem?_zipIdx, hm]

namespace Session

/-- What a session says of a ranking, given the rows that it was to print of it. -/
structure Tells (host : Host) (tree : Tree) (a : Arguments) (full : Report) (rows : List Row)
    (s : Session) :
    Prop where
  exit : s.exit = .ok 0
  output : ∃ lines : List String,
    s.output = summary full ++ String.join lines ++ closing a.outputDir ∧
      lines.length = rows.length ∧
      ∀ i m, rows[i]? = some m → lines[i]? = some (rowLine (i + 1) m)
  errors : s.errors = Journal.text a.verbose (Run.ofOrder host tree { path := a.archive }).journal
  unwritten : a.outputDir = none → s.tree = tree
  written : ∀ dir, a.outputDir = some dir → ∃ place,
    s.tree.resolve (Run.reportPath dir) = .ok place ∧
      s.tree.file? place = some full.document.toUTF8

/-- Two sessions, each at its time, that end alike but for the rows that they print. -/
structure EndsLike (clock clock' : Clock) (s s' : Session) : Prop where
  exit : s.exit = s'.exit
  /-- They print the same, or rows behind a summary of one report, in which only the time differs. -/
  output : s.output = s'.output ∨ ∃ r r' front back rest rest', r.Retimed clock clock' r' ∧
    summary r = front ++ r.stats.elapsed.oneDecimal ++ back ∧ s.output = summary r ++ rest ∧
    summary r' = front ++ r'.stats.elapsed.oneDecimal ++ back ∧ s'.output = summary r' ++ rest'
  /-- Every file is the same, or it is the file of that report. -/
  files : ∀ q, s.tree.file? q = s'.tree.file? q ∨ ∃ r r' : Report, r.Retimed clock clock' r' ∧
    s.tree.file? q = some r.document.toUTF8 ∧ s'.tree.file? q = some r'.document.toUTF8
  errors : clock = clock' → s.errors = s'.errors
  tree : clock = clock' → s.tree = s'.tree

/-- The lines in front of the rows are the same at any time, but for what the time itself is. -/
theorem summary_of_retimed {r r' : Report} (h : r.Retimed clock clock' r') : ∃ front back,
    summary r = front ++ r.stats.elapsed.oneDecimal ++ back ∧
      summary r' = front ++ r'.stats.elapsed.oneDecimal ++ back := by
  refine ⟨"Classes scanned: " ++ toString r.stats.entriesScanned ++ "\n" ++
    "Methods found: " ++ toString r.stats.methodsFound ++ "\n" ++ "Parse time: ",
    " ms\n" ++ String.join (r.warnings.map fun w => "warning: " ++ w ++ "\n"), ?_, ?_⟩
  · unfold summary
    simp only [String.append_assoc]
  · unfold summary
    simp only [String.append_assoc, h.entriesScanned_eq, h.methodsFound_eq, h.warnings_eq]

theorem ofReport_number (hn : 0 ≤ n) (ha : a.top = .number n) (r : Report) (tree : Tree)
    (errors : String) : ofReport a r tree errors = ⟨.ok 0,
      summary r ++ ranking (Run.kept (some n) r.methods) ++ closing a.outputDir, errors, tree⟩ := by
  rw [ofReport, ha, Amount.rows_number hn]

/-- How many rows are to be printed is a matter of the output alone. -/
theorem endsLike_of_number {n' : Int} (ha : a.top = .number n) (hn : 0 ≤ n) (hn' : 0 ≤ n')
    (ha' : a' = { a with top := .number n' }) (u : Zip.Unpackers) (clock clock' : Clock)
    (tree : Tree) :
    (ofArguments ⟨u, clock⟩ tree a).EndsLike clock clock' (ofArguments ⟨u, clock'⟩ tree a') := by
  subst ha'
  unfold ofArguments
  dsimp only
  cases tree.exists (Files.Path.ofString a.archive) with
  | error fault => exact ⟨rfl, .inl rfl, fun _ => .inl rfl, fun _ => rfl, fun _ => rfl⟩
  | ok found =>
      cases found with
      | false => exact ⟨rfl, .inl rfl, fun _ => .inl rfl, fun _ => rfl, fun _ => rfl⟩
      | true =>
          -- With one order for both, the two runs fail alike or have one report at two times.
          cases hr : (Run.ofOrder ⟨u, clock⟩ tree a.order).result with
          | error fault =>
              have hr' := Except.error_of_map_eq (Run.untimed_result u clock clock' tree a.order) hr
              have hfiles := fun q => (Run.file?_of_result_error hr q).trans
                (Run.file?_of_result_error hr' q).symm
              unfold Arguments.order at hr hr' hfiles
              simp only [hr, hr']
              refine ⟨rfl, .inl rfl, fun q => .inl (hfiles q), ?_, ?_⟩
              · rintro rfl
                rfl
              · rintro rfl
                rfl
          | ok r =>
              obtain ⟨r', hr', hretimed⟩ := Run.exists_retimed hr clock'
              obtain ⟨_, _, _, _, hw⟩ := Run.reports_of_result hr
              obtain ⟨_, _, _, _, hw'⟩ := Run.reports_of_result hr'
              have hfiles := Run.file?_of_writes hw hw'
              unfold Arguments.order at hr hr' hfiles
              simp only [hr, hr', ← hretimed.verdict_eq]
              split
              · refine ⟨rfl, .inl rfl, fun q => ?_, ?_, ?_⟩
                · exact (hfiles q).imp_right fun h => ⟨r, r', hretimed, h⟩
                · rintro rfl
                  simp only [hretimed.eq rfl]
                · rintro rfl
                  rfl
              · rw [ofReport_number hn ha, ofReport_number hn' rfl]
                obtain ⟨front, back, hfront, hfront'⟩ := summary_of_retimed hretimed
                refine ⟨rfl, .inr ⟨r, r', front, back, _, _, hretimed, hfront, String.append_assoc,
                  hfront', String.append_assoc⟩, fun q => ?_, ?_, ?_⟩
                · exact (hfiles q).imp_right fun h => ⟨r, r', hretimed, h⟩
                · rintro rfl
                  rfl
                · rintro rfl
                  rfl

/-- The ranking in full decides what a session says of an archive that is not rejected. -/
theorem tells_ofArguments (h : (Run.ofOrder host tree { path := a.archive }).result = .ok full)
    (hv : full.verdict ≠ Verdict.reject.label) (ha : a.top = .number n) (hn : 0 ≤ n)
    (hw : Run.Writable tree a.outputDir) :
    (ofArguments host tree a).Tells host tree a full (Run.kept (some n) full.methods) := by
  have hunlimited : Run.Limitable { path := a.archive, outputDir := a.outputDir } := by
    simp [Run.Limitable]
  obtain ⟨hresult, hwritten⟩ := Run.ofOrder_of_unlimited
    (p := { path := a.archive, outputDir := a.outputDir }) h rfl rfl rfl hunlimited hw
  have hjournal := Run.journal_eq (p := { path := a.archive, outputDir := a.outputDir })
    h rfl rfl hunlimited
  have hexists := Run.exists_of_result_ok h
  dsimp only at hexists
  have hall : { full with methods := Run.kept none full.methods } = full := rfl
  rw [hall] at hresult hwritten
  have hsession : ofArguments host tree a = ⟨.ok 0,
      summary full ++ ranking (Run.kept (some n) full.methods) ++ closing a.outputDir,
      Journal.text a.verbose (Run.ofOrder host tree { path := a.archive }).journal,
      (Run.ofOrder host tree { path := a.archive, outputDir := a.outputDir }).tree⟩ := by
    unfold ofArguments
    rw [hexists]
    simp only [hresult, if_neg hv]
    rw [ofReport_number hn ha, hjournal]
  obtain ⟨lines, hlines, hlength, hnumbered⟩ := exists_lines (Run.kept (some n) full.methods)
  rw [hsession, hlines]
  generalize (Run.ofOrder host tree { path := a.archive, outputDir := a.outputDir }).tree = after
    at hwritten
  exact {
    exit := rfl
    output := ⟨lines, rfl, hlength, hnumbered⟩
    errors := rfl
    unwritten := fun hnone => by
      rw [hnone] at hwritten
      exact (Except.ok.inj hwritten).symm
    written := fun dir hdir => by
      rw [hdir] at hwritten
      obtain ⟨place, hplace, hcontent, -⟩ := Run.exists_of_write hwritten
      exact ⟨place, hplace, hcontent⟩ }

end Session
end JarRank.CommandLine
