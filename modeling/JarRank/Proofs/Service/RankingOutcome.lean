import JarRank.Proofs.Ranking.Containment
import JarRank.Proofs.Ranking.Documents
import JarRank.Proofs.Service.InvalidBody
import JarRank.Proofs.Service.RankingReply
import JarRank.Proofs.Service.ReportPlace

/-!
# What comes of a request for a ranking

A request that has been understood ends in one of seven ways. There is no file at the path
of its archive; the system refuses to tell, or to read the file; the analysis of the archive
stops; fewer than no methods are to be returned, which only a default can ask for; the report
cannot be written where it was asked to be; or there is a report, which is written wherever
it is to be written and then shown. What is shown and what is written are the report of one
and the same run, that over the archive with the limit of the request. A container that
cannot be opened has a report as well, which is written but not shown as a ranking.
-/
namespace JarRank

open Files (Path Tree)

/-- Where a path leads nowhere for a cause that does not say that nothing is there, the system is not
able to tell. -/
theorem Files.Tree.isFile_of_resolve_error {t : Tree} {p : Path} {cause : Files.Cause}
    (h : t.resolve p = .error cause) (hcause : cause.isAbsence = false) :
    t.isFile p = .error ⟨cause, p⟩ := by
  have hlook : t.look p = .error cause := by
    rw [look, h]
    rfl
  simp [isFile, ask, hlook, hcause]

namespace Json

theorem field?_record_eq_some_iff {fields : List (String × Json)} (h : (fields.map (·.1)).Nodup)
    {name : String} {v : Json} : (record fields).field? name = some v ↔ (name, v) ∈ fields := by
  rw [record, field?_eq_some_iff (distinctKeys_of_nodup h), List.mem_map]
  constructor
  · intro hv
    rcases hv with ⟨f, hf, heq⟩
    rcases Prod.mk.inj heq with ⟨hkey, hvalue⟩
    rw [← ofString_injective hkey, ← hvalue]
    exact hf
  · intro hv
    exact ⟨_, hv, rfl⟩

end Json

namespace Analysis

/-- The bytes are no archive that can be opened. -/
def Unopened (host : Host) (profile : Profile) (data : ByteArray) : Prop :=
  ∃ fault, (ofBytes host profile data).result = .error (.opening (.container fault))

/-- The analysis of the bytes stops, and not because they are no archive. -/
def Stops (host : Host) (profile : Profile) (data : ByteArray) (fault : AnalysisFault) : Prop :=
  (ofBytes host profile data).result = .error fault ∧ ∀ flaw, fault ≠ .opening (.container flaw)

theorem verdict_ne_reject {host : Host} {profile : Profile} {data : ByteArray} {r : Report}
    (h : (ofBytes host profile data).result = .ok r) : r.verdict ≠ Verdict.reject.label := by
  have hlabel : ∀ reasons, (Verdict.ofReasons reasons).label ≠ Verdict.reject.label := by
    intro reasons
    cases reasons <;> simp [Verdict.ofReasons, Verdict.label]
  unfold ofBytes at h
  split at h
  · cases h
  · split at h
    · cases h
    · rw [Aggregation.eq_of_result (Except.mapError_eq_ok_iff.1 h)]
      exact hlabel _

end Analysis

namespace Run

variable {host : Host} {o : Order} {data : ByteArray}

theorem report_eq_error_iff {fault : AnalysisFault} :
    (report host o data).1 = .error fault ↔ Analysis.Stops host o.profile data fault := by
  unfold Analysis.Stops
  by_cases hc : Analysis.Unopened host o.profile data
  · rcases hc with ⟨flaw, hc⟩
    rw [report_of_container hc, hc]
    constructor
    · intro h
      cases h
    · intro h
      cases h.1
      exact (h.2 flaw rfl).elim
  · have hn : ∀ flaw, (Analysis.ofBytes host o.profile data).result ≠
        .error (.opening (.container flaw)) := fun flaw h => hc ⟨flaw, h⟩
    rw [report_of_not_container hn]
    constructor
    · intro h
      refine ⟨h, ?_⟩
      rintro flaw rfl
      exact hn flaw h
    · intro h
      exact h.1

/-- The report of a run rejects exactly the archives that cannot be opened. -/
theorem verdict_eq_reject_iff {found : Report} (h : (report host o data).1 = .ok found) :
    found.verdict = Verdict.reject.label ↔ Analysis.Unopened host o.profile data := by
  constructor
  · intro hv
    by_contra hc
    rw [report_of_not_container fun flaw hf => hc ⟨flaw, hf⟩] at h
    exact Analysis.verdict_ne_reject h hv
  · intro hc
    rcases hc with ⟨flaw, hc⟩
    rw [report_of_container hc] at h
    cases h
    rfl

theorem reasons_of_unopened {found : Report} (h : (report host o data).1 = .ok found)
    (hc : Analysis.Unopened host o.profile data) : found.reasons = ["INVALID_CONTAINER"] := by
  rcases hc with ⟨flaw, hc⟩
  rw [report_of_container hc] at h
  cases h
  rfl

end Run

namespace Service

namespace Ranking

variable {host : Host} {s : Settings} {tree : Tree} {r : Request}

/-- The run over the archive of a request, with its limit and with nothing to be written. -/
def bareOrder (s : Settings) (r : Request) : Order :=
  { path := (archive s r).toString, limit := some (limit s r) }

/-- The archive of a request is a file, of which these bytes are read. -/
structure Archived (s : Settings) (tree : Tree) (r : Request) (data : ByteArray) : Prop where
  file : tree.isFile (archive s r) = .ok true
  read : tree.read (archive s r) = .ok data

/-- How a request ends. -/
inductive Ends (host : Host) (s : Settings) (tree : Tree) (r : Request) : Outcome → Prop
  | missing : tree.isFile (archive s r) = .ok false →
      Ends host s tree r ⟨⟨404, .json (.record [("detail",
        .text ("Archive not found: " ++ (archive s r).toString))]), none⟩, tree⟩
  | unseen {fault : Files.FileFault} : tree.isFile (archive s r) = .error fault →
      Ends host s tree r ⟨.ofFault (.run (.file fault)), tree⟩
  | unread {fault : Files.FileFault} : tree.isFile (archive s r) = .ok true →
      tree.read (archive s r) = .error fault →
      Ends host s tree r ⟨.ofFault (.run (.file fault)), tree⟩
  | stopped {data : ByteArray} {fault : AnalysisFault} :
      Archived s tree r data → Analysis.Stops host .standard data fault →
      Ends host s tree r ⟨.ofFault (.run (.analysis fault)), tree⟩
  | negative {data : ByteArray} :
      Archived s tree r data → (∀ fault, ¬ Analysis.Stops host .standard data fault) →
      limit s r < 0 → Ends host s tree r ⟨.ofFault (.run (.limit ⟨limit s r⟩)), tree⟩
  | unwritten {data : ByteArray} {report : Report} {fault : RunFault} {left : Tree} :
      Archived s tree r data → (∀ fault, ¬ Analysis.Stops host .standard data fault) →
      0 ≤ limit s r → (Run.ofOrder host tree (bareOrder s r)).result = .ok report →
      Run.write tree (outputDir s r) report = .error (fault, left) →
      Ends host s tree r ⟨.ofFault (.run fault), left⟩
  | reported {data : ByteArray} {report : Report} {after : Tree} :
      Archived s tree r data → (∀ fault, ¬ Analysis.Stops host .standard data fault) →
      0 ≤ limit s r → (Run.ofOrder host tree (bareOrder s r)).result = .ok report →
      Run.write tree (outputDir s r) report = .ok after →
      Ends host s tree r ⟨reply s r report, after⟩

theorem ofString_order (s : Settings) (r : Request) :
    Path.ofString (order s r).path = archive s r :=
  Path.ofString_toString <| Path.isName_of_mem_join (fun _ => Path.isName_of_mem_parts)
    fun _ => Path.isName_of_mem_parts

theorem Archived.find {data : ByteArray} (h : Archived s tree r data) :
    tree.find? (archive s r) = some (.file data) := by
  obtain ⟨found, hfind⟩ := Tree.find?_of_isFile h.file
  exact Tree.find?_of_read hfind h.read

/-- What comes of a request for an archive that is a file is what comes of its run. -/
theorem handle_of_file (hfile : tree.isFile (archive s r) = .ok true) :
    handle host s tree r =
      match (Run.ofOrder host tree (order s r)).result with
      | .error fault => ⟨.ofFault (.run fault), (Run.ofOrder host tree (order s r)).tree⟩
      | .ok report => ⟨reply s r report, (Run.ofOrder host tree (order s r)).tree⟩ := by
  cases hresult : (Run.ofOrder host tree (order s r)).result with
  | error fault => simp only [handle, hfile, hresult]
  | ok report => simp only [handle, hfile, hresult]

theorem handle_of_prevents {fault : RunFault} (hfile : tree.isFile (archive s r) = .ok true)
    (h : Run.Prevents host tree (order s r) fault) :
    handle host s tree r = ⟨.ofFault (.run fault), tree⟩ := by
  obtain ⟨hresult, htree⟩ := Run.ofOrder_of_prevents h
  rw [handle_of_file hfile, hresult, htree]

/-- A request for an archive that can be read ends as its analysis does, or with its report. -/
theorem ends_of_archived {data : ByteArray} (h : Archived s tree r data) :
    Ends host s tree r (handle host s tree r) := by
  have hfind : tree.find? (.ofString (order s r).path) = some (.file data) := by
    rw [ofString_order]
    exact h.find
  have hread : tree.read (.ofString (order s r).path) = .ok data := by
    rw [ofString_order]
    exact h.read
  cases hreport : (Run.report host (order s r) data).1 with
  | error fault =>
      rw [handle_of_prevents h.file (.analysis hfind hread hreport)]
      exact .stopped h (Run.report_eq_error_iff (o := order s r).1 hreport)
  | ok found =>
      have hgoes : ∀ fault, ¬ Analysis.Stops host .standard data fault := by
        intro fault hstops
        have herror := Run.report_eq_error_iff (o := order s r).2 hstops
        rw [hreport] at herror
        cases herror
      by_cases hlimit : limit s r < 0
      · rw [handle_of_prevents h.file (.limit hfind hread hreport rfl hlimit)]
        exact .negative h hgoes hlimit
      · have hlimitable : Run.Limitable (order s r) := by
          intro n hn
          cases hn
          omega
        have hreports : Run.Reports host tree (order s r) data found :=
          ⟨hfind, hread, hreport, hlimitable⟩
        have hbare : Run.Reports host tree (bareOrder s r) data found :=
          hreports.of_order rfl rfl hlimitable
        have hresult := (Run.ofOrder_of_reports hbare (by simp [Run.Writable, bareOrder])).1
        rw [handle_of_file h.file, Run.ofOrder_eq_of_reports hreports]
        cases hw : Run.write tree (order s r).outputDir (Run.completed (order s r) data found) with
        | error fault => exact .unwritten h hgoes (by omega) hresult hw
        | ok after => exact .reported h hgoes (by omega) hresult hw

theorem ends_handle (host : Host) (s : Settings) (tree : Tree) (r : Request) :
    Ends host s tree r (handle host s tree r) := by
  cases hfile : tree.isFile (archive s r) with
  | error fault =>
      rw [handle, hfile]
      exact .unseen hfile
  | ok there =>
      cases there with
      | false =>
          rw [handle, hfile]
          dsimp only
          rw [ofDetail_text]
          exact .missing hfile
      | true =>
          obtain ⟨found, hfind⟩ := Tree.find?_of_isFile hfile
          rcases Tree.read_of_find hfind with ⟨refusal, hread⟩ | ⟨data, -, hread⟩ | ⟨hd, -⟩
          · have hprevents : Run.Prevents host tree (order s r)
                (.file ⟨.refused refusal, .ofString (order s r).path⟩) := by
              apply Run.Prevents.unread <;> rw [ofString_order]
              · exact Tree.exists_of_find hfind
              · exact hread
            rw [handle_of_prevents hfile hprevents, ofString_order]
            exact .unread hfile hread
          · exact ends_of_archived ⟨hfile, hread⟩
          · cases hd

/-! ### What a reply shows -/

/-- The value shows a report: it has the fields of the report but for three, and one that tells where
the report is written. -/
structure ShowsReport (s : Settings) (r : Request) (report : Report) (v : Json) : Prop where
  shown : ∀ key, key ∉ ["archive_sha256", "class_versions", "timestamp", "output_dir"] →
    v.field? key = report.toJson.field? key
  withheld : ∀ key ∈ ["archive_sha256", "class_versions", "timestamp"], v.field? key = none
  outputDir : v.field? "output_dir" = some (.textOrNull ((outputDir s r).map Path.toString))

theorem showsReport_answer {report : Report} (h : report.archivePath = some (archive s r).toString) :
    ShowsReport s r report (answer s r report) where
  shown := by
    intro key hkey
    ext v
    rw [answer, Json.field?_record_eq_some_iff (by simp), Report.toJson,
      Json.field?_record_eq_some_iff (by simp), h]
    simp only [List.mem_cons, List.not_mem_nil, or_false, not_or] at hkey
    -- Both have the same fields but for the order of the methods and the counts.
    simp only [List.mem_cons, Prod.mk.injEq, hkey, List.not_mem_nil, or_false, false_and, false_or,
      Json.textOrNull, or_left_comm]
  withheld := by
    intro key hkey
    rw [Option.eq_none_iff_forall_ne_some]
    intro v hv
    rw [answer, Json.field?_record_eq_some_iff (by simp)] at hv
    simp only [List.mem_cons, List.not_mem_nil, or_false] at hkey
    rcases hkey with rfl | rfl | rfl <;> simp at hv
  outputDir := rfl

theorem reply_of_rejected {report : Report} (h : report.verdict = Verdict.reject.label) :
    reply s r report = ⟨422, .json (.record [("detail", .record [("reasons", .texts report.reasons),
      ("warnings", .texts report.warnings)])]), none⟩ := by
  rw [reply, if_pos h]
  apply ofDetail_of_foreign
  intro P hP
  rw [hP.holds_record]
  simp [hP.holds_texts]

/-- It does not matter whether the number of methods is asked for or is that of the settings. -/
theorem handle_limit (host : Host) (s : Settings) (tree : Tree) (r : Request) :
    handle host s tree { r with top := some (limit s r) } = handle host s tree r := by
  have harchive : archive s { r with top := some (limit s r) } = archive s r := rfl
  have horder : order s { r with top := some (limit s r) } = order s r := rfl
  have hreply : ∀ report, reply s { r with top := some (limit s r) } report = reply s r report :=
    fun _ => rfl
  simp only [handle, harchive, horder, hreply]

/-- What is known of the report of a request on an archive, and of its reply. -/
structure Reported (host : Host) (s : Settings) (tree : Tree) (r : Request) (data : ByteArray)
    (report : Report) (o : Outcome) : Prop where
  /-- At any time, a run over the archive by itself has this report, but for what the clock tells. -/
  run : ∀ clock, ∃ report',
    (Run.ofOrder ⟨host.unpackers, clock⟩ tree (bareOrder s r)).result = .ok report' ∧
      report.Retimed host.clock clock report'
  /-- If the report cannot be written, that fault is all that comes of the request. -/
  unwritten : ¬ Run.Writable tree (outputDir s r) →
    tree.AddsDirectories o.tree ∧ ∃ fault, o.reply = .ofFault (.run (.file fault))
  rejected : Run.Writable tree (outputDir s r) →
    (o.reply.status = 422 ↔ Analysis.Unopened host .standard data)
  rejection : o.reply.status = 422 → o.reply.body = .json (.record [("detail",
    .record [("reasons", .texts ["INVALID_CONTAINER"]), ("warnings", .texts report.warnings)])])
  answered : Run.Writable tree (outputDir s r) → ¬ Analysis.Unopened host .standard data →
    ∃ v, o.reply = ⟨200, .json v, none⟩ ∧ ShowsReport s r report v
  /-- The file that is written is the document of the report. -/
  written : ∀ dir, outputDir s r = some dir → o.reply.status = 200 ∨ o.reply.status = 422 →
    ∃ place, o.tree.resolve (Run.reportPath dir) = .ok place ∧
      o.tree.file? place = some report.document.toUTF8 ∧
      ∀ q, q ≠ place → o.tree.file? q = tree.file? q

/-- The outcome of a request is a view of the run over its archive. -/
structure Faithful (host : Host) (s : Settings) (tree : Tree) (r : Request) (o : Outcome) :
    Prop where
  missing : (o.reply.status = 404 ∧ o.tree = tree) ↔ tree.isFile (archive s r) = .ok false
  unseen : ∀ fault, tree.isFile (archive s r) = .error fault →
    o = ⟨.ofFault (.run (.file fault)), tree⟩
  unread : ∀ fault, tree.isFile (archive s r) = .ok true →
    tree.read (archive s r) = .error fault → o = ⟨.ofFault (.run (.file fault)), tree⟩
  stopped : ∀ data fault, Archived s tree r data → Analysis.Stops host .standard data fault →
    o = ⟨.ofFault (.run (.analysis fault)), tree⟩
  negative : ∀ data, Archived s tree r data →
    (∀ fault, ¬ Analysis.Stops host .standard data fault) → limit s r < 0 →
    o = ⟨.ofFault (.run (.limit ⟨limit s r⟩)), tree⟩
  reported : ∀ data, Archived s tree r data →
    (∀ fault, ¬ Analysis.Stops host .standard data fault) → 0 ≤ limit s r →
    ∃ report, Reported host s tree r data report o
  unasked : r.writesOutputs = false → o.tree = tree
  /-- Files are changed only with a reply of 200 or 422. -/
  unchanged : ¬ (o.reply.status = 200 ∨ o.reply.status = 422) → tree.AddsDirectories o.tree

variable {data : ByteArray} {report : Report} {after left : Tree} {o : Outcome}

theorem completed_of_bareOrder (h : (Run.ofOrder host tree (bareOrder s r)).result = .ok report)
    (hdata : Archived s tree r data) :
    ∃ found, (Run.report host (bareOrder s r) data).1 = .ok found ∧
      report = Run.completed (bareOrder s r) data found := by
  rcases Run.reports_of_result h with ⟨data', found, hreports, hcompleted, _⟩
  have hread := hreports.read
  rw [show (bareOrder s r).path = (order s r).path from rfl, ofString_order, hdata.read] at hread
  cases hread
  exact ⟨found, hreports.report, hcompleted⟩

/-- The reply to a request with a report, told by the archive. -/
theorem reply_cases (h : (Run.ofOrder host tree (bareOrder s r)).result = .ok report)
    (hdata : Archived s tree r data) :
    (Analysis.Unopened host .standard data ∧ reply s r report = ⟨422, .json (.record [("detail",
        .record [("reasons", .texts ["INVALID_CONTAINER"]), ("warnings", .texts report.warnings)])]),
        none⟩) ∨
      ¬ Analysis.Unopened host .standard data ∧
        ∃ v, reply s r report = ⟨200, .json v, none⟩ ∧ ShowsReport s r report v := by
  rcases completed_of_bareOrder h hdata with ⟨found, hfound, hcompleted⟩
  have hverdict : report.verdict = Verdict.reject.label ↔ Analysis.Unopened host .standard data := by
    have hsame : report.verdict = found.verdict := by
      rw [hcompleted]
      rfl
    rw [hsame]
    exact Run.verdict_eq_reject_iff (o := bareOrder s r) hfound
  by_cases hc : Analysis.Unopened host .standard data
  · have hsame : report.reasons = found.reasons := by
      rw [hcompleted]
      rfl
    have hreasons : found.reasons = ["INVALID_CONTAINER"] :=
      Run.reasons_of_unopened (o := bareOrder s r) hfound hc
    rw [reply_of_rejected (hverdict.2 hc), hsame, hreasons]
    exact .inl ⟨hc, rfl⟩
  · have hpath : report.archivePath = some (archive s r).toString := by
      rw [hcompleted, Run.completed]
      exact congrArg (fun p : Path => some p.toString) (ofString_order s r)
    rw [reply_of_finite (mt hverdict.1 hc) (Run.isFinite_elapsed h)]
    exact .inr ⟨hc, _, rfl, showsReport_answer hpath⟩

theorem reported_of_unwritten {fault : RunFault}
    (h : (Run.ofOrder host tree (bareOrder s r)).result = .ok report)
    (hw : Run.write tree (outputDir s r) report = .error (fault, left)) :
    Reported host s tree r data report ⟨.ofFault (.run fault), left⟩ := by
  have hfits := Run.fits_of_result h
  have hunwritable : ¬ Run.Writable tree (outputDir s r) := by
    intro hwritable
    rcases (Run.exists_write_iff hfits).2 hwritable with ⟨after, hafter⟩
    rw [hw] at hafter
    cases hafter
  obtain ⟨⟨f, rfl⟩, hadds⟩ := Run.of_write_eq_error hfits hw
  exact {
    run := fun clock => Run.exists_retimed h clock
    unwritten := fun _ => ⟨hadds, f, rfl⟩
    rejected := fun hwritable => (hunwritable hwritable).elim
    rejection := fun hstatus => by cases hstatus
    answered := fun hwritable _ => (hunwritable hwritable).elim
    written := fun _ _ hstatus => by rcases hstatus with hstatus | hstatus <;> cases hstatus }

theorem reported_of_written (h : (Run.ofOrder host tree (bareOrder s r)).result = .ok report)
    (hdata : Archived s tree r data) (hw : Run.write tree (outputDir s r) report = .ok after) :
    Reported host s tree r data report ⟨reply s r report, after⟩ := by
  have hwritable : Run.Writable tree (outputDir s r) :=
    (Run.exists_write_iff (Run.fits_of_result h)).1 ⟨after, hw⟩
  have hrun : ∀ clock, ∃ report',
      (Run.ofOrder ⟨host.unpackers, clock⟩ tree (bareOrder s r)).result = .ok report' ∧
        report.Retimed host.clock clock report' := fun clock => Run.exists_retimed h clock
  have hwritten : ∀ dir, outputDir s r = some dir → ∃ place,
      after.resolve (Run.reportPath dir) = .ok place ∧
        after.file? place = some report.document.toUTF8 ∧
        ∀ q, q ≠ place → after.file? q = tree.file? q := by
    intro dir hdir
    rw [hdir] at hw
    exact Run.frame_of_write hw
  rcases reply_cases h hdata with ⟨hc, hreply⟩ | ⟨hc, v, hreply, hshows⟩
  · rw [hreply]
    exact {
      run := hrun
      unwritten := fun hn => (hn hwritable).elim
      rejected := fun _ => by simp [hc]
      rejection := fun _ => rfl
      answered := fun _ hn => (hn hc).elim
      written := fun dir hdir _ => hwritten dir hdir }
  · rw [hreply]
    exact {
      run := hrun
      unwritten := fun hn => (hn hwritable).elim
      rejected := fun _ => by simp [hc]
      rejection := fun hs => by cases hs
      answered := fun _ _ => ⟨v, rfl, hshows⟩
      written := fun dir hdir _ => hwritten dir hdir }

namespace Ends

theorem status_eq_404_iff (h : Ends host s tree r o) :
    (o.reply.status = 404 ∧ o.tree = tree) ↔ tree.isFile (archive s r) = .ok false := by
  cases h with
  | missing hfile => simp [hfile]
  | unseen hfile => simp [hfile, Reply.ofFault]
  | unread hfile _ => simp [hfile, Reply.ofFault]
  | stopped hdata _ => simp [hdata.file, Reply.ofFault]
  | negative hdata _ _ => simp [hdata.file, Reply.ofFault]
  | unwritten hdata _ _ _ _ => simp [hdata.file, Reply.ofFault]
  | reported hdata _ _ hresult _ =>
      rcases reply_cases hresult hdata with ⟨_, hreply⟩ | ⟨_, v, hreply, _⟩
      · simp [hdata.file, hreply]
      · simp [hdata.file, hreply]

theorem eq_of_unseen (h : Ends host s tree r o) {fault : Files.FileFault}
    (hfault : tree.isFile (archive s r) = .error fault) :
    o = ⟨.ofFault (.run (.file fault)), tree⟩ := by
  cases h with
  | missing hfile => cases hfault.symm.trans hfile
  | unseen hfile =>
      cases hfault.symm.trans hfile
      rfl
  | unread hfile _ => cases hfault.symm.trans hfile
  | stopped hdata _ => cases hfault.symm.trans hdata.file
  | negative hdata _ _ => cases hfault.symm.trans hdata.file
  | unwritten hdata _ _ _ _ => cases hfault.symm.trans hdata.file
  | reported hdata _ _ _ _ => cases hfault.symm.trans hdata.file

theorem eq_of_unread (h : Ends host s tree r o) {fault : Files.FileFault}
    (hthere : tree.isFile (archive s r) = .ok true) (hfault : tree.read (archive s r) = .error fault) :
    o = ⟨.ofFault (.run (.file fault)), tree⟩ := by
  cases h with
  | missing hfile => cases hthere.symm.trans hfile
  | unseen hfile => cases hthere.symm.trans hfile
  | unread _ hread =>
      cases hfault.symm.trans hread
      rfl
  | stopped hdata _ => cases hfault.symm.trans hdata.read
  | negative hdata _ _ => cases hfault.symm.trans hdata.read
  | unwritten hdata _ _ _ _ => cases hfault.symm.trans hdata.read
  | reported hdata _ _ _ _ => cases hfault.symm.trans hdata.read

/-- With an archive there, a request ends in one of three ways. -/
theorem of_archived (h : Ends host s tree r o) (hdata : Archived s tree r data) :
    (∃ fault, Analysis.Stops host .standard data fault ∧
        o = ⟨.ofFault (.run (.analysis fault)), tree⟩) ∨
      (∀ fault, ¬ Analysis.Stops host .standard data fault) ∧
        (limit s r < 0 ∧ o = ⟨.ofFault (.run (.limit ⟨limit s r⟩)), tree⟩ ∨
          0 ≤ limit s r ∧ ∃ report, Reported host s tree r data report o) := by
  cases h with
  | missing hfile => cases hdata.file.symm.trans hfile
  | unseen hfile => cases hdata.file.symm.trans hfile
  | unread _ hread => cases hdata.read.symm.trans hread
  | stopped hdata' hstops =>
      cases hdata.read.symm.trans hdata'.read
      exact .inl ⟨_, hstops, rfl⟩
  | negative hdata' hgoes hlimit =>
      cases hdata.read.symm.trans hdata'.read
      exact .inr ⟨hgoes, .inl ⟨hlimit, rfl⟩⟩
  | unwritten hdata' hgoes hlimit hresult hw =>
      cases hdata.read.symm.trans hdata'.read
      exact .inr ⟨hgoes, .inr ⟨hlimit, _, reported_of_unwritten hresult hw⟩⟩
  | reported hdata' hgoes hlimit hresult hw =>
      cases hdata.read.symm.trans hdata'.read
      exact .inr ⟨hgoes, .inr ⟨hlimit, _, reported_of_written hresult hdata hw⟩⟩

theorem eq_of_stops (h : Ends host s tree r o) (hdata : Archived s tree r data)
    {fault : AnalysisFault} (hstops : Analysis.Stops host .standard data fault) :
    o = ⟨.ofFault (.run (.analysis fault)), tree⟩ := by
  rcases h.of_archived hdata with ⟨fault', hstops', ho⟩ | ⟨hgoes, _⟩
  · cases hstops.1.symm.trans hstops'.1
    exact ho
  · exact (hgoes fault hstops).elim

theorem eq_of_negative (h : Ends host s tree r o) (hdata : Archived s tree r data)
    (hgoes : ∀ fault, ¬ Analysis.Stops host .standard data fault) (hlimit : limit s r < 0) :
    o = ⟨.ofFault (.run (.limit ⟨limit s r⟩)), tree⟩ := by
  rcases h.of_archived hdata with ⟨fault, hstops, _⟩ | ⟨_, ⟨_, ho⟩ | ⟨hnonneg, _⟩⟩
  · exact (hgoes fault hstops).elim
  · exact ho
  · omega

theorem exists_reported (h : Ends host s tree r o) (hdata : Archived s tree r data)
    (hgoes : ∀ fault, ¬ Analysis.Stops host .standard data fault) (hlimit : 0 ≤ limit s r) :
    ∃ report, Reported host s tree r data report o := by
  rcases h.of_archived hdata with ⟨fault, hstops, _⟩ | ⟨_, ⟨hnegative, _⟩ | ⟨_, hreported⟩⟩
  · exact (hgoes fault hstops).elim
  · omega
  · exact hreported

theorem tree_of_unasked (h : Ends host s tree r o) (hunasked : r.writesOutputs = false) :
    o.tree = tree := by
  have hnone : outputDir s r = none := by simp [outputDir, hunasked]
  cases h with
  | unwritten _ _ _ _ hw =>
      rw [hnone] at hw
      cases hw
  | reported _ _ _ _ hw =>
      rw [hnone] at hw
      exact (Except.ok.inj hw).symm
  | _ => rfl

/-- Without an answer no file is changed, though directories may have been made. -/
theorem addsDirectories (h : Ends host s tree r o)
    (hstatus : ¬ (o.reply.status = 200 ∨ o.reply.status = 422)) : tree.AddsDirectories o.tree := by
  cases h with
  | unwritten _ _ _ hresult hw => exact (Run.of_write_eq_error (Run.fits_of_result hresult) hw).2
  | reported hdata _ _ hresult _ =>
      rcases reply_cases hresult hdata with ⟨_, hreply⟩ | ⟨_, v, hreply, _⟩
      · simp [hreply] at hstatus
      · simp [hreply] at hstatus
  | _ => exact .refl tree

theorem faithful (h : Ends host s tree r o) : Faithful host s tree r o where
  missing := h.status_eq_404_iff
  unseen _ hfault := h.eq_of_unseen hfault
  unread _ hfile hfault := h.eq_of_unread hfile hfault
  stopped _ _ hdata hstops := h.eq_of_stops hdata hstops
  negative _ hdata hgoes hlimit := h.eq_of_negative hdata hgoes hlimit
  reported _ hdata hgoes hlimit := h.exists_reported hdata hgoes hlimit
  unasked := h.tree_of_unasked
  unchanged := h.addsDirectories

end Ends

end Ranking

/-- A body that is a request is handled as the request. -/
theorem handle_of_form {host : Host} {s : Settings} {tree : Tree} {body : Bytes} {r : Request}
    (h : Request.ofBytes body = .ok r) :
    handle host s tree "POST" "/ranker/run" body = Ranking.handle host s tree r := by
  change Ranking.handleBody host s tree body = _
  rw [Ranking.handleBody, h]

/-- A request that has been understood ends as the run over its archive does: what is shown and what
is written are the report of that run. A number of methods that is left out is the one of the
settings. -/
theorem ranking_faithful (host : Host) (s : Settings) (tree : Tree) {body : Bytes} {r : Request}
    (h : Request.ofBytes body = .ok r) :
    Ranking.Faithful host s tree r (handle host s tree "POST" "/ranker/run" body) ∧
      ∀ body', Request.ofBytes body' = .ok { r with top := some (Ranking.limit s r) } →
        handle host s tree "POST" "/ranker/run" body' =
          handle host s tree "POST" "/ranker/run" body := by
  constructor
  · rw [handle_of_form h]
    exact (Ranking.ends_handle host s tree r).faithful
  · intro body' hbody'
    rw [handle_of_form hbody', handle_of_form h, Ranking.handle_limit]

theorem exists_analysis_emptyArchive :
    ∃ report, (Analysis.ofBytes .bare .standard emptyArchive).result = .ok report := by
  have hok : (Analysis.ofBytes .bare .standard emptyArchive).result.toOption.isSome = true := by
    decide +kernel
  cases h : (Analysis.ofBytes .bare .standard emptyArchive).result with
  | error fault =>
      rw [h] at hok
      cases hok
  | ok report => exact ⟨report, rfl⟩

/-- An archive without members can be read in any tree that refuses nothing and has it there. -/
theorem archived_emptyArchive {tree : Tree}
    (hplace : tree.resolve (Ranking.archive localSettings ⟨"a.jar", none, true⟩) =
      .ok ⟨.above 0, ["a.jar", "archives"]⟩)
    (hnode : tree.node? ⟨.above 0, ["a.jar", "archives"]⟩ = some (.file emptyArchive))
    (hnone : tree.refusals = []) :
    Ranking.Archived localSettings tree ⟨"a.jar", none, true⟩ emptyArchive :=
  ⟨Tree.isFile_of_find (Tree.find?_of_resolve hplace hnode hnone),
    Tree.read_of_resolve hplace hnode hnone⟩

/-- The report on an archive without members is shown and written. -/
theorem ranking_faithful_empty :
    ∃ r report place v, Request.ofBytes (writingForm "a.jar") = .ok r ∧
      (Run.ofOrder .bare (treeWith "a.jar") (Ranking.bareOrder localSettings r)).result =
        .ok report ∧
      (handle .bare localSettings (treeWith "a.jar") "POST" "/ranker/run"
        (writingForm "a.jar")).reply = ⟨200, .json v, none⟩ ∧
      Ranking.ShowsReport localSettings r report v ∧
      (treeAfter "a.jar").file? place = some report.document.toUTF8 := by
  have hform : Request.ofBytes (writingForm "a.jar") = .ok ⟨"a.jar", none, true⟩ :=
    Except.toOption_eq_some_iff.1 (by decide +kernel)
  have hdata := @archived_emptyArchive (treeWith "a.jar") (by decide +kernel) rfl rfl
  have hstatus : (handle .bare localSettings (treeWith "a.jar") "POST" "/ranker/run"
      (writingForm "a.jar")).reply.status = 200 := by decide +kernel
  have hgoes : ∀ fault, ¬ Analysis.Stops .bare .standard emptyArchive fault := by
    intro fault hstops
    rcases exists_analysis_emptyArchive with ⟨report, hreport⟩
    rw [Analysis.Stops, hreport] at hstops
    cases hstops.1
  have hfaithful := (ranking_faithful .bare localSettings (treeWith "a.jar") hform).1
  rcases hfaithful.reported emptyArchive hdata hgoes (by decide) with ⟨report, hreported⟩
  rcases hreported.run Host.bare.clock with ⟨report', hresult, hretimed⟩
  obtain rfl := hretimed.eq rfl
  rcases hreported.written _ rfl (.inl hstatus) with ⟨place, _, hcontent, _⟩
  have hwritable : Run.Writable (treeWith "a.jar")
      (Ranking.outputDir localSettings ⟨"a.jar", none, true⟩) := by
    by_contra hn
    rcases hreported.unwritten hn with ⟨_, fault, hfault⟩
    rw [hfault] at hstatus
    cases hstatus
  have hopened : ¬ Analysis.Unopened .bare .standard emptyArchive := by
    intro hc
    rw [← hreported.rejected hwritable, hstatus] at hc
    cases hc
  rcases hreported.answered hwritable hopened with ⟨v, hreply, hshows⟩
  exact ⟨_, report, place, v, hform, hresult, hreply, hshows, hcontent⟩

/-- A tree with this archive, in which a file has the place of the directory for its report. -/
def blockedTree : Tree :=
  { nodes := (⟨.above 0, ["a", "results"]⟩, .file ⟨#[0]⟩) ::
      (⟨.above 0, ["results"]⟩, .directory) :: (treeWith "a.jar").nodes }

/-- A name with more bytes than a name may have. -/
def lengthyName : String := String.ofList (List.replicate 300 'a')

/-- The form that asks for the archive of that name. -/
def lengthyForm : Bytes :=
  "\x7b\"archive_path\":\"".toUTF8.data.toList ++ List.replicate 300 0x61 ++
    "\"\x7d".toUTF8.data.toList

theorem not_mem_lengthyName {c : Char} (hc : c ≠ 'a') : c ∉ lengthyName.toList := by
  have hletters : lengthyName.toList = List.replicate 300 'a' := String.toList_ofList
  rw [hletters]
  exact fun h => hc (List.eq_of_mem_replicate h)

theorem archive_lengthyName : Ranking.archive localSettings ⟨lengthyName, none, false⟩ =
    ⟨.relative, ["archives", lengthyName]⟩ := by
  have harchives : localSettings.archives = ⟨.relative, ["archives"]⟩ := by decide +kernel
  have hpart : Path.isPart lengthyName = true := by decide +kernel
  rw [Ranking.archive, harchives, Path.ofString_of_no_slash (not_mem_lengthyName (by decide)),
    Path.join_of_relative rfl]
  simp only [List.filter_cons, hpart]
  rfl

theorem resolve_lengthyName : (treeWith "a.jar").resolve ⟨.relative, ["archives", lengthyName]⟩ =
    .error .nameTooLong := by
  have hnul := @not_mem_lengthyName '\x00' (by decide)
  have hshort : ¬ Tree.longestPath <
      (⟨.relative, ["archives", lengthyName]⟩ : Path).toString.utf8ByteSize := by decide +kernel
  have hfollow : (treeWith "a.jar").follow .working ["archives", lengthyName] =
      .error .nameTooLong := by decide +kernel
  rw [Tree.resolve, if_neg (by simp [hnul]), if_neg hshort]
  exact hfollow

/-- There the request for the report to be written is not answered, although the archive is there and
its analysis has a result. And a request for an archive with a name that is too long is not answered
that there is none, although there is none. -/
theorem blocked_not_answered :
    (Request.ofBytes (writingForm "a.jar") = .ok ⟨"a.jar", none, true⟩ ∧
      Ranking.Archived localSettings blockedTree ⟨"a.jar", none, true⟩ emptyArchive ∧
      0 ≤ Ranking.limit localSettings ⟨"a.jar", none, true⟩ ∧
      (∃ report, (Analysis.ofBytes .bare .standard emptyArchive).result = .ok report) ∧
      (handle .bare localSettings blockedTree "POST" "/ranker/run"
        (writingForm "a.jar")).reply.status = 500 ∧
      (handle .bare localSettings blockedTree "POST" "/ranker/run"
        (writingForm "a.jar")).reply.raised =
          some (.run (.file ⟨.exists, ⟨.relative, ["results", "a"]⟩⟩))) ∧
    Request.ofBytes lengthyForm = .ok ⟨lengthyName, none, false⟩ ∧
      (treeWith "a.jar").find? (Ranking.archive localSettings ⟨lengthyName, none, false⟩) = none ∧
      (handle .bare localSettings (treeWith "a.jar") "POST" "/ranker/run"
        lengthyForm).reply.status = 500 ∧
      (handle .bare localSettings (treeWith "a.jar") "POST" "/ranker/run"
        lengthyForm).reply.raised =
          some (.run (.file ⟨.nameTooLong, ⟨.relative, ["archives", lengthyName]⟩⟩)) := by
  have hform : Request.ofBytes (writingForm "a.jar") = .ok ⟨"a.jar", none, true⟩ :=
    Except.toOption_eq_some_iff.1 (by decide +kernel)
  have hdata := @archived_emptyArchive blockedTree (by decide +kernel) rfl rfl
  have hlengthy : Request.ofBytes lengthyForm = .ok ⟨lengthyName, none, false⟩ :=
    Except.toOption_eq_some_iff.1 (by decide +kernel)
  have hunseen : (treeWith "a.jar").isFile (Ranking.archive localSettings ⟨lengthyName, none, false⟩) =
      .error ⟨.nameTooLong, ⟨.relative, ["archives", lengthyName]⟩⟩ := by
    rw [archive_lengthyName]
    exact Tree.isFile_of_resolve_error resolve_lengthyName rfl
  have hnothing : (treeWith "a.jar").find?
      (Ranking.archive localSettings ⟨lengthyName, none, false⟩) = none := by
    rw [Option.eq_none_iff_forall_ne_some]
    intro node hfind
    cases (Tree.isFile_of_find hfind).symm.trans hunseen
  have hended := @handle_of_form .bare localSettings (treeWith "a.jar") _ _ hlengthy
  rw [Ranking.handle, hunseen] at hended
  refine ⟨⟨hform, hdata, by decide, exists_analysis_emptyArchive, ?_, ?_⟩, hlengthy, hnothing, ?_, ?_⟩
  · decide +kernel
  · decide +kernel
  · rw [hended]
    rfl
  · rw [hended]
    rfl

end Service
end JarRank
