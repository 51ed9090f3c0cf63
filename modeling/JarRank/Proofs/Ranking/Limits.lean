import JarRank.Proofs.Ranking.Clocks
import JarRank.Proofs.Ranking.Effects

/-!
# Limited rankings

A limit cuts a ranking and does nothing else. The report of a run with a limit is that of
the run without one, save for the methods, which are the first of its methods, as many as
the limit says or as there are. It does not matter how the path of the archive is spelled,
nor where the report is written. At another time the same is reported, but for what the
clock tells, or the run fails in the same way.
-/
namespace JarRank

open Files (Path Tree)

namespace Run

variable {host : Host} {u : Zip.Unpackers} {clock clock' : Clock} {tree : Tree} {o p : Order}
  {data : ByteArray} {r full : Report}

theorem kept_isPrefix (limit : Option Int) (rows : List Row) : kept limit rows <+: rows := by
  cases limit with
  | none => exact List.prefix_rfl
  | some n => exact List.take_prefix n.toNat rows

theorem kept_isPrefix_kept {a b : Int} (h : a ≤ b) (rows : List Row) :
    kept (some a) rows <+: kept (some b) rows := by
  have hnat : a.toNat ≤ b.toNat := by omega
  exact List.take_prefix_take_left hnat

theorem length_kept {n : Int} (h : 0 ≤ n) (rows : List Row) :
    ((kept (some n) rows).length : Int) = min n rows.length := by
  rw [kept, List.length_take]
  omega

/-- No row that is left out of a ranking is larger than one that is kept. -/
theorem size_le_of_kept {rows front : List Row} (hsorted : rows.Pairwise fun a b => b.size ≤ a.size)
    (hfront : front <+: rows) :
    ∀ m ∈ front, ∀ m' ∈ rows.drop front.length, m'.size ≤ m.size := by
  obtain ⟨back, rfl⟩ := hfront
  intro m hm m' hm'
  rw [List.drop_left] at hm'
  exact (List.pairwise_append.1 hsorted).2.2 m hm m' hm'

theorem report_congr (host : Host) (h : p.profile = o.profile) (data : ByteArray) :
    (report host p data).1 = (report host o data).1 := by
  unfold report
  rw [h]
  dsimp only
  split <;> rfl

/-- Where the report is written, how the path is spelled and what limit is set, decides nothing about
whether there is a report. -/
theorem Reports.of_order (h : Reports host tree o data r)
    (hpath : Path.ofString p.path = Path.ofString o.path) (hprofile : p.profile = o.profile)
    (hl : Limitable p) : Reports host tree p data r where
  find := by
    rw [hpath]
    exact h.find
  read := by
    rw [hpath]
    exact h.read
  report := by
    rw [report_congr host hprofile]
    exact h.report
  limitable := hl

/-- What is told of an archive is no matter of where its report is written. -/
theorem journal_eq (h : (ofOrder host tree o).result = .ok r) (hpath : p.path = o.path)
    (hprofile : p.profile = o.profile) (hl : Limitable p) :
    (ofOrder host tree p).journal = (ofOrder host tree o).journal := by
  obtain ⟨data, found, hreports, -⟩ := reports_of_result h
  have hreport : report host p data = report host o data := by
    unfold report
    rw [hpath, hprofile]
  have hspelled : Path.ofString p.path = Path.ofString o.path := by rw [hpath]
  rw [journal_of_reports hreports, journal_of_reports (hreports.of_order hspelled hprofile hl),
    hreport]

theorem exists_of_result_ok (h : (ofOrder host tree o).result = .ok r) :
    tree.exists (.ofString o.path) = .ok true := by
  obtain ⟨data, found, hreports, -⟩ := reports_of_result h
  exact Tree.exists_of_find hreports.find

/-- The report of a run without a limit decides the reports of all runs over the same archive with
the same profile, and what they write. -/
theorem ofOrder_of_unlimited (h : (ofOrder host tree o).result = .ok full) (hnone : o.limit = none)
    (hpath : Path.ofString p.path = Path.ofString o.path) (hprofile : p.profile = o.profile)
    (hl : Limitable p) (hw : Writable tree p.outputDir) :
    (ofOrder host tree p).result = .ok { full with methods := kept p.limit full.methods } ∧
      write tree p.outputDir { full with methods := kept p.limit full.methods } =
        .ok (ofOrder host tree p).tree := by
  obtain ⟨data, found, hreports, hfull, -⟩ := reports_of_result h
  have hcompleted : completed p data found =
      { full with methods := kept p.limit full.methods } := by
    rw [hfull, completed, completed, hpath, hnone]
    rfl
  rw [← hcompleted]
  exact ofOrder_of_reports (hreports.of_order hpath hprofile hl) hw

theorem consistent (h : (ofOrder host tree o).result = .ok r) : r.Consistent o.limit := by
  obtain ⟨data, found, hr, hf⟩ := exists_of_result h
  exact consistent_finished (consistent_report hr) hf

/-! ### Another time -/

theorem Prevents.at_clock {fault : RunFault} (h : Prevents ⟨u, clock⟩ tree o fault)
    (clock' : Clock) : Prevents ⟨u, clock'⟩ tree o fault := by
  cases h with
  | missing he => exact .missing he
  | unseen he => exact .unseen he
  | directory hf hr => exact .directory hf hr
  | unread he hr => exact .unread he hr
  | analysis hf hread hr =>
      exact .analysis hf hread (Except.error_of_map_eq (untimed_report u clock clock' o _) hr)
  | limit hf hread hr hl hn =>
      obtain ⟨r', hr', -⟩ := Except.exists_of_map_eq (untimed_report u clock clock' o _) hr
      exact .limit hf hread hr' hl hn

theorem Reports.at_clock (h : Reports ⟨u, clock⟩ tree o data r) (clock' : Clock) :
    ∃ r', Reports ⟨u, clock'⟩ tree o data r' ∧ r'.untimed = r.untimed := by
  obtain ⟨r', hr', hsame⟩ := Except.exists_of_map_eq (untimed_report u clock clock' o data) h.report
  exact ⟨r', ⟨h.find, h.read, hr', h.limitable⟩, hsame⟩

theorem untimed_completed {r r' : Report} (o : Order) (data : ByteArray)
    (h : r'.untimed = r.untimed) : (completed o data r').untimed = (completed o data r).untimed :=
  congrArg (completed o data) h

/-- Why a report cannot be written is no matter of what it says. -/
theorem write_eq_error_of_fits {outputDir : Option Path} {r r' : Report} {fault : RunFault × Tree}
    (hr : r.Fits Numeral.maxDigits) (hr' : r'.Fits Numeral.maxDigits)
    (h : write tree outputDir r = .error fault) : write tree outputDir r' = .error fault := by
  unfold write at h ⊢
  split at h
  · cases h
  · split at h
    · exact h
    · rw [Report.text?_eq_some_iff.2 ⟨hr, rfl⟩] at h
      rw [Report.text?_eq_some_iff.2 ⟨hr', rfl⟩]
      obtain ⟨f, hf, rfl⟩ := Except.mapError_eq_error_iff.1 h
      exact Except.mapError_eq_error_iff.2 ⟨f, Tree.write_eq_error_of_content hf, rfl⟩

/-- At another time a run fails in the same way, or has the same report but for what the clock
tells. -/
theorem untimed_result (u : Zip.Unpackers) (clock clock' : Clock) (tree : Tree) (o : Order) :
    (ofOrder ⟨u, clock⟩ tree o).result.map Report.untimed =
      (ofOrder ⟨u, clock'⟩ tree o).result.map Report.untimed := by
  rcases prevents_or_reports ⟨u, clock⟩ tree o with ⟨fault, hp⟩ | ⟨data, r, hr⟩
  · rw [(ofOrder_of_prevents hp).1, (ofOrder_of_prevents (hp.at_clock clock')).1]
  · obtain ⟨r', hr', hsame⟩ := hr.at_clock clock'
    have hcompleted := untimed_completed o data hsame
    rw [ofOrder_eq_of_reports hr, ofOrder_eq_of_reports hr']
    cases hw : write tree o.outputDir (completed o data r) with
    | error fault => rw [write_eq_error_of_fits hr.fits hr'.fits hw]
    | ok after =>
        obtain ⟨after', hw'⟩ :=
          (exists_write_iff hr'.fits).2 ((exists_write_iff hr.fits).1 ⟨after, hw⟩)
        rw [hw']
        exact congrArg Except.ok hcompleted.symm

theorem exists_retimed (h : (ofOrder ⟨u, clock⟩ tree o).result = .ok r) (clock' : Clock) :
    ∃ r', (ofOrder ⟨u, clock'⟩ tree o).result = .ok r' ∧ r.Retimed clock clock' r' := by
  obtain ⟨r', hr', hsame⟩ := Except.exists_of_map_eq (untimed_result u clock clock' tree o) h
  refine ⟨r', hr', hsame.symm, fun hclock => ?_⟩
  subst hclock
  exact Except.ok.inj (h.symm.trans hr')

/-- Two reports that are written to one directory are in one place of it. -/
theorem file?_of_writes {outputDir : Option Path} {r r' : Report} {after after' : Tree}
    (h : write tree outputDir r = .ok after) (h' : write tree outputDir r' = .ok after')
    (q : Files.Place) : after.file? q = after'.file? q ∨
      after.file? q = some r.document.toUTF8 ∧ after'.file? q = some r'.document.toUTF8 := by
  cases outputDir with
  | none =>
      cases h
      cases h'
      exact .inl rfl
  | some dir =>
      obtain ⟨-, made, hmade, hw⟩ := write_some_eq_ok_iff.1 h
      obtain ⟨-, made', hmade', hw'⟩ := write_some_eq_ok_iff.1 h'
      cases hmade.symm.trans hmade'
      obtain ⟨place, hplace, haccepts, rfl⟩ := Tree.write_eq_ok_iff.1 hw
      obtain ⟨place', hplace', -, rfl⟩ := Tree.write_eq_ok_iff.1 hw'
      cases hplace.symm.trans hplace'
      have hnames := Tree.names_ne_nil haccepts.ne_directory
      by_cases hq : q = place
      · subst hq
        right
        simp only [Tree.file?, Tree.node?_put_self hnames, and_self]
      · left
        simp only [Tree.file?, Tree.node?_put_of_ne hq]

end Run
end JarRank
