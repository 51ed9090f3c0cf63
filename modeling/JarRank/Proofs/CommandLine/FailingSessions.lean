import JarRank.CommandLine.Session
import JarRank.Proofs.Ranking.Effects

/-!
# Sessions that fail

A run writes no file unless all else has succeeded, so that a session which is ended by a fault of
its run leaves every file as it was. How many rows are to be printed is looked at behind the run.
An amount that is below zero, or that has lost its value, ends a session whose report has been
written already. A run that is given the same number as a limit looks at it before it writes.
-/
namespace JarRank

open Files (Path Tree)

namespace Run

variable {host : Host} {tree : Tree} {o : Order}

/-- A limit below zero is found before anything is written. -/
theorem tree_of_negative {n : Int} (hl : o.limit = some n) (hn : n < 0) :
    (ofOrder host tree o).tree = tree := by
  rcases prevents_or_reports host tree o with ⟨_, hp⟩ | ⟨data, r, hr⟩
  · exact (ofOrder_of_prevents hp).2
  · exact (Int.not_lt.2 (hr.limitable n hl) hn).elim

end Run

namespace CommandLine

/-- Why an amount is no number of rows. -/
def Amount.fault? : Amount → Option SessionFault
  | standard => none
  | number n => if n < 0 then some (.run (.limit ⟨n⟩)) else none
  | blank => some .blankAmount

theorem Amount.rows_eq_error_iff {amount : Amount} {methods : List Row} {fault : SessionFault} :
    amount.rows methods = .error fault ↔ amount.fault? = some fault := by
  cases amount with
  | standard => simp [rows, fault?, Row.top, Profile.standard, Except.mapError]
  | number n => by_cases hn : n < 0 <;> simp [rows, fault?, Row.top, hn, Except.mapError]
  | blank => simp [rows, fault?]

/-- What a session has run. -/
def Arguments.order (a : Arguments) : Order := { path := a.archive, outputDir := a.outputDir }

namespace Session

variable {host : Host} {tree : Tree} {a : Arguments} {arguments : List String} {full : Report}
  {fault : SessionFault}

theorem start_of_parse (h : Arguments.parse arguments = .ok a) :
    start host tree arguments = ofArguments host tree a := by
  rw [start, h]

theorem tree_ofReport (a : Arguments) (full : Report) (after : Tree) (errors : String) :
    (ofReport a full after errors).tree = after := by
  unfold ofReport
  split <;> rfl

/-- A session leaves what its run leaves. -/
theorem tree_ofArguments (host : Host) (tree : Tree) (a : Arguments) :
    (ofArguments host tree a).tree = (Run.ofOrder host tree a.order).tree := by
  unfold ofArguments
  dsimp only
  split
  · next he => exact (Run.ofOrder_of_prevents (o := a.order) (.unseen he)).2.symm
  · next he => exact (Run.ofOrder_of_prevents (o := a.order) (.missing he)).2.symm
  · split
    · rfl
    · split
      · rfl
      · exact tree_ofReport _ _ _ _

/-- What ends a session without a status: its run has no report, or the report is printed but for
rows that there is no number of. -/
inductive Faulty (host : Host) (tree : Tree) (a : Arguments) : SessionFault → Prop
  | unreported {fault : RunFault} : (Run.ofOrder host tree a.order).result = .error fault →
      Faulty host tree a (.run fault)
  | uncounted {fault : SessionFault} {full : Report} :
      (Run.ofOrder host tree a.order).result = .ok full → full.verdict ≠ Verdict.reject.label →
      a.top.fault? = some fault → Faulty host tree a fault

theorem faulty_of_exit (h : (ofArguments host tree a).exit = .error fault) :
    Faulty host tree a fault := by
  unfold ofArguments at h
  dsimp only at h
  split at h
  · next he =>
    cases h
    exact .unreported (Run.ofOrder_of_prevents (o := a.order) (.unseen he)).1
  · cases h
  · split at h
    · next hr =>
        cases h
        exact .unreported hr
    · next hr =>
        split at h
        · cases h
        · next hv =>
            unfold ofReport at h
            split at h
            · next hrows =>
                cases h
                exact .uncounted hr hv (Amount.rows_eq_error_iff.1 hrows)
            · cases h

theorem exit_of_uncounted (hr : (Run.ofOrder host tree a.order).result = .ok full)
    (hv : full.verdict ≠ Verdict.reject.label) (hf : a.top.fault? = some fault) :
    (ofArguments host tree a).exit = .error fault := by
  obtain ⟨data, found, hreports, -⟩ := Run.reports_of_result hr
  have hexists : tree.exists (.ofString a.archive) = .ok true := Tree.exists_of_find hreports.find
  have hrows : a.top.rows full.methods = .error fault := Amount.rows_eq_error_iff.2 hf
  unfold Arguments.order at hr
  unfold ofArguments
  simp only [hexists, hr, if_neg hv, ofReport, hrows]

/-- How a session ends and leaves the files, where faults are concerned. -/
structure Leaves (host : Host) (tree : Tree) (a : Arguments) (s : Session) : Prop where
  /-- Unless the amount is at fault, every file is as it was. -/
  unchanged : ∀ fault, s.exit = .error fault → a.top.fault? ≠ some fault →
    ∀ q, s.tree.file? q = tree.file? q
  /-- An amount at fault ends a session that has a report to print. -/
  exit : ∀ fault full, a.top.fault? = some fault → (Run.ofOrder host tree a.order).result = .ok full →
    full.verdict ≠ Verdict.reject.label → s.exit = .error fault
  /-- The report has been written by then. -/
  written : ∀ full dir, (Run.ofOrder host tree a.order).result = .ok full → a.outputDir = some dir →
    ∃ place, s.tree.resolve (Run.reportPath dir) = .ok place ∧
      s.tree.file? place = some full.document.toUTF8 ∧
      ∀ q, q ≠ place → s.tree.file? q = tree.file? q
  unwritten : a.outputDir = none → s.tree = tree

/-- Whatever is given on the command line, a session that is ended by a fault has changed a file only
if the amount of rows is below zero or has lost its value, and then it has written the report.
A run with a limit below zero leaves the tree as it was. -/
theorem files_of_fault (h : Arguments.parse arguments = .ok a) :
    (start host tree arguments).Leaves host tree a ∧
      ∀ n, n < 0 → (Run.ofOrder host tree { a.order with limit := some n }).tree = tree := by
  rw [start_of_parse h]
  refine ⟨⟨fun fault hexit hne q => ?_, fun fault full hf hr hv => exit_of_uncounted hr hv hf,
    fun full dir hr hdir => ?_, fun hnone => ?_⟩, fun n hn => Run.tree_of_negative rfl hn⟩
  · rw [tree_ofArguments]
    cases faulty_of_exit hexit with
    | unreported hr => exact Run.file?_of_result_error hr q
    | uncounted _ _ hf => exact (hne hf).elim
  · rw [tree_ofArguments]
    obtain ⟨_, _, _, _, hwritten⟩ := Run.reports_of_result hr
    rw [show a.order.outputDir = some dir from hdir] at hwritten
    exact Run.frame_of_write hwritten
  · rw [tree_ofArguments]
    exact Run.tree_of_unwritten host tree hnone

/-- A tree with one file, an archive without members. -/
def memberlessTree : Tree :=
  { nodes := [(⟨.above 0, ["a.jar"]⟩,
      .file ([0x50, 0x4B, 5, 6] ++ List.replicate 18 0 : Bytes).toByteArray)] }

/-- The report on this archive is to be written, and one row less than none to be printed. -/
def negativeArguments : List String := ["a.jar", "-o", "out", "-n", "-1"]

/-- What is made of them. -/
def negativeAmount : Arguments := ⟨"a.jar", .number (-1), some ⟨.relative, ["out"]⟩, false⟩

theorem parse_negativeArguments : Arguments.parse negativeArguments = .ok negativeAmount := by
  decide +kernel

/-- The session ends with the fault of the amount, and the report has been written. -/
theorem files_of_fault_negative :
    Arguments.parse negativeArguments = .ok negativeAmount ∧
      ∃ full place, (start .bare memberlessTree negativeArguments).exit = .error (.run (.limit ⟨-1⟩)) ∧
        (start .bare memberlessTree negativeArguments).tree.resolve
          (Run.reportPath ⟨.relative, ["out"]⟩) = .ok place ∧
        (start .bare memberlessTree negativeArguments).tree.file? place =
          some (Report.document full).toUTF8 := by
  obtain ⟨hleaves, -⟩ := @files_of_fault .bare memberlessTree _ _ parse_negativeArguments
  have hfault : negativeAmount.top.fault? = some (.run (.limit ⟨-1⟩)) := rfl
  have hok :
      ((Run.ofOrder .bare memberlessTree negativeAmount.order).result.map Report.verdict).toOption =
      some "WARN" := by
    decide +kernel
  cases hr : (Run.ofOrder .bare memberlessTree negativeAmount.order).result with
  | error fault =>
      rw [hr] at hok
      cases hok
  | ok full =>
      rw [hr] at hok
      have hv : full.verdict ≠ Verdict.reject.label := by
        rw [Option.some.inj hok]
        decide
      obtain ⟨place, hplace, hcontent, -⟩ := hleaves.written full _ hr rfl
      exact ⟨parse_negativeArguments, full, place, hleaves.exit _ full hfault hr hv, hplace, hcontent⟩

/-- A session that is ended by a fault may have written a file. -/
theorem exists_written_of_fault :
    ∃ a fault place, Arguments.parse negativeArguments = .ok a ∧
      (start .bare memberlessTree negativeArguments).exit = .error fault ∧
      (start .bare memberlessTree negativeArguments).tree.file? place ≠ memberlessTree.file? place := by
  have hexit : (start .bare memberlessTree negativeArguments).exit = .error (.run (.limit ⟨-1⟩)) := by
    decide +kernel
  have hchanged : (start .bare memberlessTree negativeArguments).tree.file?
      ⟨.above 0, ["ranking_report.json", "out"]⟩ ≠
        memberlessTree.file? ⟨.above 0, ["ranking_report.json", "out"]⟩ := by
    decide +kernel
  exact ⟨negativeAmount, _, _, parse_negativeArguments, hexit, hchanged⟩

end Session
end CommandLine
end JarRank
