import JarRank.Proofs.Ranking.Clocks
import JarRank.Proofs.Ranking.Consistency
import JarRank.Proofs.Ranking.Order

/-!
# Reports on several lists of class files

The report on two lists of class files in a row is put together from the reports on each of them:
the rankings are merged, the failures and the warnings follow each other, and what is counted is
added. Nothing that was met in the first list has any influence on what is said of the second.

If the class files come in another order, the same is said of each of them. Only the order of
what is told changes: of the rows that have the same size, of the failures and of the warnings.

Each report has a clock of its own. The time that was taken is therefore no part of this.
-/
namespace JarRank

/-- A report says what two reports say, of the class files of the first and then of the second. -/
structure Report.Joins (a b r : Report) : Prop where
  methods : r.methods = Row.merged a.methods b.methods
  ties : ∀ size, r.methods.filter (fun m => m.size = size) =
    a.methods.filter (fun m => m.size = size) ++ b.methods.filter fun m => m.size = size
  warnings : r.warnings = a.warnings ++ b.warnings
  failures : r.failures = a.failures ++ b.failures
  classVersions : ∀ n, r.classVersions.count? n =
    (a.classVersions.count? n).merge (· + ·) (b.classVersions.count? n)
  entriesScanned : r.stats.entriesScanned = a.stats.entriesScanned + b.stats.entriesScanned
  methodsFound : r.stats.methodsFound = a.stats.methodsFound + b.stats.methodsFound

/-- Two reports say the same, but of class files in another order. -/
structure Report.Rearranges (r r' : Report) : Prop where
  methods : r.methods.Perm r'.methods
  sizes : r.methods.map Row.size = r'.methods.map Row.size
  warnings : r.warnings.Perm r'.warnings
  failures : r.failures.Perm r'.failures
  classVersions : r.classVersions = r'.classVersions
  entriesScanned : r.stats.entriesScanned = r'.stats.entriesScanned
  methodsFound : r.stats.methodsFound = r'.stats.methodsFound
  verdict : r.verdict = r'.verdict
  reasons : r.reasons = r'.reasons

namespace Report

variable {clock clock' : Clock} {profile : Profile} {xs ys es es' : List Entry} {a b r r' : Report}

theorem joins_of_covers (hxs : xs ≠ []) (hys : ys ≠ []) (ha : a.Covers profile xs)
    (hb : b.Covers profile ys) (hr : r.Covers profile (xs ++ ys)) : a.Joins b r where
  methods := by rw [hr.methods, ha.methods, hb.methods, List.flatMap_append, Row.ranked_append]
  ties size := by
    rw [hr.methods, ha.methods, hb.methods, Row.filter_ranked, Row.filter_ranked,
      Row.filter_ranked, List.flatMap_append, List.filter_append]
  warnings := by
    have hne : xs ++ ys ≠ [] := List.append_ne_nil_of_left_ne_nil hxs ys
    rw [hr.warnings, ha.warnings, hb.warnings, if_neg hne, if_neg hxs, if_neg hys, hr.failures,
      ha.failures, hb.failures, List.filterMap_append, List.map_append]
  failures := by rw [hr.failures, ha.failures, hb.failures, List.filterMap_append]
  classVersions n := by
    rw [hr.classVersions, ha.classVersions, hb.classVersions, List.filterMap_append,
      Census.count?_ofList_append]
  entriesScanned := by
    rw [hr.entriesScanned, ha.entriesScanned, hb.entriesScanned, List.length_append, Int.natCast_add]
  methodsFound := by
    rw [hr.methodsFound, ha.methodsFound, hb.methodsFound, List.flatMap_append, List.length_append,
      Int.natCast_add]

theorem stats_of_result (h : (Aggregation.ofEntries clock profile es).result = .ok r) : r.stats =
    ⟨es.length, (es.flatMap (Entry.rows profile.codeAttribute)).length, clock.elapsed⟩ := by
  rw [Aggregation.eq_of_result h, ofEntries]

/-- The verdict and the reasons are told from two numbers. -/
theorem verdict_of_result (h : (Aggregation.ofEntries clock profile es).result = .ok r) :
    r.verdict = (Verdict.ofReasons (Reason.ofCounts es.length r.failures.length)).label ∧
      r.reasons = (Reason.ofCounts es.length r.failures.length).map Reason.label := by
  rw [Aggregation.eq_of_result h]
  exact ⟨rfl, rfl⟩

theorem rearranges_of_perm (h : es.Perm es')
    (hr : (Aggregation.ofEntries clock profile es).result = .ok r)
    (hr' : (Aggregation.ofEntries clock' profile es').result = .ok r') : r.Rearranges r' := by
  have hc := Aggregation.covers_of_result hr
  have hc' := Aggregation.covers_of_result hr'
  have hrows := h.flatMap_right (Entry.rows profile.codeAttribute)
  have hempty : es = [] ↔ es' = [] := by
    rw [← List.length_eq_zero_iff, h.length_eq, List.length_eq_zero_iff]
  have hfailures : r.failures.Perm r'.failures := by
    rw [hc.failures, hc'.failures]
    exact h.filterMap _
  exact {
    methods := by
      rw [hc.methods, hc'.methods]
      exact Row.ranked_perm_ranked hrows
    sizes := by rw [hc.methods, hc'.methods, Row.map_size_ranked hrows]
    warnings := by
      rw [hc.warnings, hc'.warnings]
      simp only [hempty]
      split
      · exact .refl _
      · exact hfailures.map _
    failures := hfailures
    classVersions := by
      rw [hc.classVersions, hc'.classVersions]
      exact Census.ofList_perm (h.filterMap _)
    entriesScanned := by rw [hc.entriesScanned, hc'.entriesScanned, h.length_eq]
    methodsFound := by rw [hc.methodsFound, hc'.methodsFound, hrows.length_eq]
    verdict := by
      rw [(verdict_of_result hr).1, (verdict_of_result hr').1, h.length_eq, hfailures.length_eq]
    reasons := by
      rw [(verdict_of_result hr).2, (verdict_of_result hr').2, h.length_eq, hfailures.length_eq] }

/-- Where the clocks tell the same, the whole of the numbers is the same. -/
theorem stats_eq_of_perm (h : es.Perm es')
    (hr : (Aggregation.ofEntries clock profile es).result = .ok r)
    (hr' : (Aggregation.ofEntries clock profile es').result = .ok r') : r.stats = r'.stats := by
  have hrows := h.flatMap_right (Entry.rows profile.codeAttribute)
  rw [stats_of_result hr, stats_of_result hr', h.length_eq, hrows.length_eq]

end Report

namespace Aggregation

/-- Class files none of which is blocked are reported on in the same way in two lists and in one,
and in any order. -/
theorem reports_compose (profile : Profile) (clock clock' clock'' : Clock) :
    (∀ xs ys : List Entry, xs ≠ [] → ys ≠ [] → (∀ e ∈ xs ++ ys, e.Contained) →
      ∃ a b r, (ofEntries clock profile xs).result = .ok a ∧
        (ofEntries clock' profile ys).result = .ok b ∧
        (ofEntries clock'' profile (xs ++ ys)).result = .ok r ∧ a.Joins b r) ∧
      ∀ es es' : List Entry, es.Perm es' → (∀ e ∈ es, e.Contained) →
        ∃ r r', (ofEntries clock profile es).result = .ok r ∧
          (ofEntries clock' profile es').result = .ok r' ∧ r.Rearranges r' ∧
          (clock = clock' → r.stats = r'.stats) := by
  constructor
  · intro xs ys hxs hys h
    rcases exists_covers clock profile fun e he => h e (List.mem_append_left ys he) with ⟨a, ha, hca⟩
    rcases exists_covers clock' profile fun e he => h e (List.mem_append_right xs he) with ⟨b, hb, hcb⟩
    rcases exists_covers clock'' profile h with ⟨r, hr, hc⟩
    exact ⟨a, b, r, ha, hb, hr, Report.joins_of_covers hxs hys hca hcb hc⟩
  · intro es es' hperm h
    rcases exists_covers clock profile h with ⟨r, hr, -⟩
    rcases exists_covers clock' profile fun e he => h e (hperm.mem_iff.2 he) with ⟨r', hr', -⟩
    refine ⟨r, r', hr, hr', Report.rearranges_of_perm hperm hr hr', fun hclock => ?_⟩
    subst hclock
    exact Report.stats_eq_of_perm hperm hr hr'

/-- The first of two lists ends between two class files with methods of the same sizes. -/
theorem reports_compose_fiveEntries :
    (∃ a b r, (ofEntries .frozen .standard (fiveEntries.take 2)).result = .ok a ∧
      (ofEntries .later .standard (fiveEntries.drop 2)).result = .ok b ∧
      (ofEntries .frozen .standard fiveEntries).result = .ok r ∧ a.Joins b r) ∧
      ∃ r r', (ofEntries .frozen .standard fiveEntries).result = .ok r ∧
        (ofEntries .later .standard fiveEntries.reverse).result = .ok r' ∧ r.Rearranges r' := by
  have h : ∀ e ∈ fiveEntries, e.Contained := by
    simp [fiveEntries, Entry.Contained]
  have hsplit : fiveEntries.take 2 ++ fiveEntries.drop 2 = fiveEntries := List.take_append_drop 2 _
  obtain ⟨hjoins, hrearranges⟩ := reports_compose .standard .frozen .later .frozen
  have hparts := hjoins (fiveEntries.take 2) (fiveEntries.drop 2) (by simp [fiveEntries])
    (by simp [fiveEntries]) (hsplit.symm ▸ h)
  rw [hsplit] at hparts
  obtain ⟨r, r', hr, hr', hboth, -⟩ :=
    hrearranges _ _ (List.reverse_perm fiveEntries).symm h
  exact ⟨hparts, r, r', hr, hr', hboth⟩

end Aggregation
end JarRank
