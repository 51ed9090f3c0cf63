import JarRank.Proofs.Ranking.Limits
import JarRank.Proofs.Files.Path
import JarRank.Proofs.Service.Sendable
import JarRank.Service.Endpoint

/-!
# Rankings as replies

Everything in the answer to a request can be sent, as nothing but the time that the run took
is a number that is no integer, and that one is finite. So a request for the first methods
of an archive that is not rejected is answered with them.
-/
namespace JarRank

open Files (Tree)

/-- The time that a run has taken can be told. -/
theorem Run.isFinite_elapsed {host : Host} {tree : Tree} {o : Order} {r : Report}
    (h : (ofOrder host tree o).result = .ok r) : r.stats.elapsed.isFinite = true := by
  obtain ⟨data, found, hreports, rfl, -⟩ := reports_of_result h
  have hfound := hreports.report
  change found.stats.elapsed.isFinite = true
  unfold report at hfound
  dsimp only at hfound
  split at hfound
  · cases hfound
    rfl
  · unfold Analysis.ofBytes at hfound
    split at hfound
    · cases hfound
    · split at hfound
      · cases hfound
      · rw [Aggregation.eq_of_result (Except.mapError_eq_ok_iff.1 hfound)]
        exact host.clock.isFinite_elapsed

namespace Service

namespace Foreign

variable {P : Json → Prop}

theorem holds_textOrNull (hP : Foreign P) (hnull : ¬ P .null) (s : Option String) :
    ¬ (Json.textOrNull s).Holds P := by
  cases s with
  | none =>
      rw [Json.textOrNull, Json.Holds.iff_self (by simp) (by simp)]
      exact hnull
  | some s => exact hP.holds_text s

theorem holds_texts (hP : Foreign P) (ss : List String) : ¬ (Json.texts ss).Holds P := by
  rw [Json.texts, hP.holds_array]
  simp [hP.holds_text]

theorem holds_row (hP : Foreign P) (m : Row) : ¬ m.toJson.Holds P := by
  rw [Row.toJson, hP.holds_record]
  simp [hP.holds_text, hP.holds_integer]

theorem holds_failure (hP : Foreign P) (hnull : ¬ P .null) (f : Failure) : ¬ f.toJson.Holds P := by
  rw [Failure.toJson, hP.holds_record]
  simp [hP.holds_text, hP.holds_textOrNull hnull]

theorem holds_stats (hP : Foreign P) (s : Stats) : s.toJson.Holds P ↔ P (.number s.elapsed) := by
  have hnumber : (Json.number s.elapsed).Holds P ↔ P (.number s.elapsed) :=
    Json.Holds.iff_self (by simp) (by simp)
  rw [Stats.toJson, hP.holds_record]
  simp [hP.holds_integer, hnumber]

/-- The time is all in an answer that may have such a property. -/
theorem holds_answer (hP : Foreign P) (hnull : ¬ P .null) (s : Settings) (r : Request)
    (report : Report) :
    (Ranking.answer s r report).Holds P ↔ P (.number report.stats.elapsed) := by
  have hmethods : ¬ (Json.array (report.methods.map Row.toJson)).Holds P := by
    rw [hP.holds_array]
    simp [hP.holds_row]
  have hfailures : ¬ (Json.array (report.failures.map Failure.toJson)).Holds P := by
    rw [hP.holds_array]
    simp [hP.holds_failure hnull]
  rw [Ranking.answer, hP.holds_record]
  simp [hP.holds_text, hP.holds_textOrNull hnull, hP.holds_texts, hP.holds_stats, hmethods,
    hfailures]

end Foreign

namespace Ranking

variable {host : Host} {s : Settings} {tree : Tree} {r : Request} {full : Report} {path : String}

theorem field?_methods (s : Settings) (r : Request) (report : Report) :
    (answer s r report).field? "methods" = some (.array (report.methods.map Row.toJson)) := rfl

theorem reply_of_finite {report : Report} (hv : report.verdict ≠ Verdict.reject.label)
    (hf : report.stats.elapsed.isFinite = true) :
    reply s r report = ⟨200, .json (answer s r report), none⟩ := by
  have hfinite : ¬ (answer s r report).Holds NotFinite := by
    rw [foreign_notFinite.holds_answer (by simp [NotFinite])]
    simp [NotFinite, hf]
  have hsound : ¬ (answer s r report).Holds Json.IsBroken := by
    rw [foreign_isBroken.holds_answer (by simp [Json.IsBroken])]
    simp [Json.IsBroken]
  rw [reply, if_neg hv, Reply.ofJson, (unsendable?_of_finite hfinite).1 hsound]

/-- The ranking in full decides how a request for its first methods is answered. -/
theorem reply_handle (h : (Run.ofOrder host tree { path }).result = .ok full)
    (hv : full.verdict ≠ Verdict.reject.label) (hpath : archive s r = .ofString path)
    (hn : 0 ≤ limit s r) (hw : Run.Writable tree (outputDir s r)) :
    (handle host s tree r).reply = ⟨200, .json (answer s r
      { full with methods := Run.kept (some (limit s r)) full.methods }), none⟩ := by
  have hread : Files.Path.ofString (order s r).path = .ofString path := by
    rw [order, hpath]
    exact Files.Path.ofString_toString fun _ => Files.Path.isName_of_mem_parts
  have hlimit : Run.Limitable (order s r) := by
    intro n hl
    rw [order, Option.some.injEq] at hl
    omega
  obtain ⟨data, found, hreports, -⟩ := Run.reports_of_result h
  have hfile : tree.isFile (archive s r) = .ok true := by
    rw [hpath]
    exact Tree.isFile_of_find hreports.find
  obtain ⟨hresult, -⟩ := Run.ofOrder_of_unlimited h rfl hread rfl hlimit hw
  unfold handle
  rw [hfile]
  dsimp only
  rw [hresult]
  exact reply_of_finite hv (Run.isFinite_elapsed hresult)

end Ranking
end Service
end JarRank
