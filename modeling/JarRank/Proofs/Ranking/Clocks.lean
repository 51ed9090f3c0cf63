import JarRank.Proofs.Outcome
import JarRank.Ranking.Run

/-!
# Clocks

The clock of a host has a say in two fields of a report: in the time that the analysis has
taken, and in the time at which the report was made. Besides that it decides nothing: at any
other time the same calls are made and the same is reported, or the same goes wrong.
-/
namespace JarRank

/-- A clock that goes on for a thousand seconds. -/
def Clock.later : Clock := ⟨.zero, .thousand, "2000-01-01T00:16:40+00:00", by decide +kernel⟩

/-- A report without what a clock has put into it. -/
def Report.untimed (r : Report) : Report :=
  { r with stats := { r.stats with elapsed := .zero }, timestamp := "" }

/-- Two reports are the same but for what two clocks have put into them. -/
structure Report.Retimed (clock clock' : Clock) (r r' : Report) : Prop where
  untimed : r.untimed = r'.untimed
  eq : clock = clock' → r = r'

namespace Report.Retimed

variable {clock clock' : Clock} {r r' : Report} (h : r.Retimed clock clock' r')
include h

theorem methods_eq : r.methods = r'.methods := by
  have hmethods := congrArg Report.methods h.untimed
  exact hmethods

theorem verdict_eq : r.verdict = r'.verdict := by
  have hverdict := congrArg Report.verdict h.untimed
  exact hverdict

theorem warnings_eq : r.warnings = r'.warnings := by
  have hwarnings := congrArg Report.warnings h.untimed
  exact hwarnings

theorem entriesScanned_eq : r.stats.entriesScanned = r'.stats.entriesScanned := by
  have hscanned := congrArg (fun r : Report => r.stats.entriesScanned) h.untimed
  exact hscanned

theorem methodsFound_eq : r.stats.methodsFound = r'.stats.methodsFound := by
  have hfound := congrArg (fun r : Report => r.stats.methodsFound) h.untimed
  exact hfound

end Report.Retimed

variable (u : Zip.Unpackers) (clock clock' : Clock) (profile : Profile)

namespace Aggregation

variable (es : List Entry)

theorem untimed_result : (ofEntries clock profile es).result.map Report.untimed =
    (ofEntries clock' profile es).result.map Report.untimed := by
  unfold ofEntries
  split
  · rfl
  · dsimp only
    split <;> rfl

theorem progress_eq_of_clock :
    (ofEntries clock profile es).progress = (ofEntries clock' profile es).progress := by
  unfold ofEntries
  split
  · rfl
  · dsimp only
    split <;> rfl

end Aggregation

namespace Analysis

/-- An analysis comes to the same at any time. -/
theorem untimed_ofBytes (data : ByteArray) :
    (ofBytes ⟨u, clock⟩ profile data).result.map Report.untimed =
        (ofBytes ⟨u, clock'⟩ profile data).result.map Report.untimed ∧
      (ofBytes ⟨u, clock⟩ profile data).progress = (ofBytes ⟨u, clock'⟩ profile data).progress := by
  unfold ofBytes
  split
  · exact ⟨rfl, rfl⟩
  · split
    · exact ⟨rfl, rfl⟩
    · next ms _ =>
        refine ⟨?_, Aggregation.progress_eq_of_clock clock clock' profile _⟩
        simp only [ofEntries, Except.map_mapError]
        exact congrArg _ (Aggregation.untimed_result clock clock' profile _)

end Analysis

/-- So does what a run reports on the bytes of an archive. -/
theorem Run.untimed_report (o : Order) (data : ByteArray) :
    (report ⟨u, clock⟩ o data).1.map Report.untimed =
      (report ⟨u, clock'⟩ o data).1.map Report.untimed := by
  have hresult := (Analysis.untimed_ofBytes u clock clock' o.profile data).1
  unfold report
  dsimp only
  cases hx : (Analysis.ofBytes ⟨u, clock⟩ o.profile data).result with
  | error fault =>
      rw [Except.error_of_map_eq hresult hx]
      split <;> rfl
  | ok r =>
      obtain ⟨r', hy, hr⟩ := Except.exists_of_map_eq hresult hx
      rw [hy]
      exact congrArg Except.ok hr.symm

end JarRank
