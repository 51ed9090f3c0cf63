import JarRank.Proofs.ClassFile.Bounds
import JarRank.Proofs.Ranking.Census
import JarRank.Proofs.Ranking.MemberFaults

/-!
# Reports that agree with themselves

What a report says in one place agrees with what it says in the others: every class file
that was examined either has failed or is counted under its version, the methods are those
that were found or the first of them, and the verdict, the reasons, the warnings and the
failures belong to one of four endings. This holds of the report on class files that have
been examined, of the one on an archive that cannot be opened, and of either after a run
has limited it.
-/
namespace JarRank
namespace Report

inductive Ending where
  | rejected
  | vacant
  | damaged
  | complete
  deriving DecidableEq, Repr

def Ending.reasons : Ending → List String
  | rejected => ["INVALID_CONTAINER"]
  | vacant => ["NO_CLASS_FILES"]
  | damaged => ["ENTRIES_FAILED"]
  | complete => []

/-- What a report with an ending says. -/
inductive EndsAs (r : Report) : Ending → Prop
  | rejected : r.verdict = "REJECT" → r.reasons = ["INVALID_CONTAINER"] → r.warnings.length = 1 →
      r.methods = [] → r.failures = [] → r.classVersions.entries = [] → r.stats = {} →
      EndsAs r .rejected
  | vacant : r.verdict = "WARN" → r.reasons = ["NO_CLASS_FILES"] → r.stats.entriesScanned = 0 →
      r.warnings.length = 1 → r.failures = [] → r.methods = [] → EndsAs r .vacant
  | damaged : r.verdict = "WARN" → r.reasons = ["ENTRIES_FAILED"] → r.failures ≠ [] →
      r.warnings = r.failures.map (fun f => "Failed to parse " ++ f.path ++ ": " ++ f.message) →
      EndsAs r .damaged
  | complete : r.verdict = "ACCEPT" → r.reasons = [] → r.warnings = [] → r.failures = [] →
      0 < r.stats.entriesScanned → EndsAs r .complete

namespace EndsAs

variable {r : Report} {e e' : Ending}

theorem reasons_eq (h : r.EndsAs e) : r.reasons = e.reasons := by
  cases h <;> assumption

theorem unique (h : r.EndsAs e) (h' : r.EndsAs e') : e = e' := by
  have hreasons : e.reasons = e'.reasons := h.reasons_eq.symm.trans h'.reasons_eq
  revert hreasons
  cases e <;> cases e' <;> simp [Ending.reasons]

/-- A report accepts exactly if it warns of nothing. -/
theorem accept_iff (h : r.EndsAs e) : r.verdict = "ACCEPT" ↔ r.warnings = [] := by
  cases h with
  | rejected hv _ hw =>
    rw [hv, ← List.length_eq_zero_iff, hw]
    simp
  | vacant hv _ _ hw =>
    rw [hv, ← List.length_eq_zero_iff, hw]
    simp
  | damaged hv _ hf hw =>
    rw [hv, hw, List.map_eq_nil_iff]
    simp [hf]
  | complete hv _ hw => simp [hv, hw]

theorem eq_damaged (h : r.EndsAs e) (hf : r.failures ≠ []) : e = .damaged := by
  cases h with
  | damaged => rfl
  | rejected _ _ _ _ hnil => exact (hf hnil).elim
  | vacant _ _ _ _ hnil => exact (hf hnil).elim
  | complete _ _ _ hnil => exact (hf hnil).elim

/-- Naming the archive and leaving methods out does not change the ending. -/
theorem restrict {methods : List Row} (h : r.EndsAs e) (hm : methods.Sublist r.methods)
    (path digest : Option String) :
    Report.EndsAs { r with methods := methods, archivePath := path, archiveDigest := digest } e := by
  cases h with
  | rejected hv hr hw hnil hf hc hs =>
    rw [hnil] at hm
    exact .rejected hv hr hw (List.sublist_nil.1 hm) hf hc hs
  | vacant hv hr hs hw hf hnil =>
    rw [hnil] at hm
    exact .vacant hv hr hs hw hf (List.sublist_nil.1 hm)
  | damaged hv hr hf hw => exact .damaged hv hr hf hw
  | complete hv hr hw hf hs => exact .complete hv hr hw hf hs

end EndsAs

/-- A report agrees with itself, where it may be limited to the first methods. -/
structure Consistent (limit : Option Int) (r : Report) : Prop where
  scanned : r.stats.entriesScanned = r.failures.length + Census.total r.classVersions.entries
  ascending : r.classVersions.entries.Pairwise fun a b => a.1 < b.1
  versions : ∀ e ∈ r.classVersions.entries, 0 ≤ e.1 ∧ e.1 < 65536 ∧ 1 ≤ e.2
  sorted : r.methods.Pairwise fun a b => b.size ≤ a.size
  sizes : ∀ m ∈ r.methods, m.size < 4294967296
  length : r.methods.length = limit.elim r.stats.methodsFound fun n => min n r.stats.methodsFound
  ending : ∃! e, r.EndsAs e
  accepts : r.verdict = "ACCEPT" ↔ r.warnings = []

theorem consistent_rejected (now profileId message : String) :
    (rejected now profileId message).Consistent none where
  scanned := rfl
  ascending := .nil
  versions := by simp [rejected, Census.empty]
  sorted := .nil
  sizes := by simp [rejected]
  length := rfl
  ending := by
    have h : (rejected now profileId message).EndsAs .rejected := by
      constructor <;> rfl
    exact ⟨.rejected, h, fun _ h' => h'.unique h⟩
  accepts := by simp [rejected, Verdict.label]

end Report

namespace Entry

variable {code : String}

/-- What was found in a class file is as large as a class file can say. -/
theorem bounded_of_summary? {e : Entry} {s : ClassFile.Summary} (h : e.summary? code = some s) :
    s.Bounded := by
  unfold summary? at h
  split at h
  · next bytes _ =>
    cases hd : ClassFile.Summary.decode bytes.toList code with
    | error fault => simp [hd, Except.toOption] at h
    | ok s' =>
      rw [hd] at h
      cases h
      exact ClassFile.Summary.bounded_of_decode hd
  · cases h

theorem size_lt_of_mem_rows {e : Entry} : ∀ m ∈ e.rows code, m.size < 4294967296 := by
  intro m hm
  unfold rows at hm
  split at hm
  · next s hs =>
    obtain ⟨m', hm', rfl⟩ := List.mem_map.1 hm
    exact (bounded_of_summary? hs).size_lt m' hm'
  · cases hm

theorem major_lt {e : Entry} {n : Int} (h : e.major? code = some n) : 0 ≤ n ∧ n < 65536 := by
  obtain ⟨s, hs, rfl⟩ := Option.map_eq_some_iff.1 h
  have hlt := (bounded_of_summary? hs).major_lt
  omega

/-- A class file that is not blocked has failed or has a version. -/
theorem failure?_isSome_iff {e : Entry} (h : e.Contained) :
    (e.failure? code).isSome ↔ (e.major? code).isSome = false := by
  obtain ⟨x, hx⟩ := exists_examine code h
  rcases of_examine hx with ⟨f, -, hf, hs⟩ | ⟨s, -, hf, hs⟩ <;> simp [major?, hf, hs]

theorem length_eq {es : List Entry} (h : ∀ e ∈ es, e.Contained) :
    es.length = (es.filterMap (failure? code)).length + (es.filterMap (major? code)).length := by
  induction es with
  | nil => rfl
  | cons e es ih =>
    obtain ⟨he, hes⟩ := List.forall_mem_cons.1 h
    have hiff : (e.failure? code).isSome ↔ (e.major? code).isSome = false := failure?_isSome_iff he
    have hlen := ih hes
    cases hf : e.failure? code with
    | some f =>
      have hm : e.major? code = none := by simpa [hf] using hiff
      rw [List.filterMap_cons_some hf, List.filterMap_cons_none hm, List.length_cons,
        List.length_cons]
      omega
    | none =>
      obtain ⟨n, hm⟩ : ∃ n, e.major? code = some n := by
        simpa [hf, Option.ne_none_iff_exists'] using hiff
      rw [List.filterMap_cons_none hf, List.filterMap_cons_some hm, List.length_cons,
        List.length_cons]
      omega

end Entry

namespace Report

variable {clock : Clock} {profile : Profile} {es : List Entry}

theorem reasons_of_failed {scanned failed : Int} (hs : 0 < scanned) (hf : 0 < failed) :
    Reason.ofCounts scanned failed = [.entriesFailed] := by
  have hne : scanned ≠ 0 := by omega
  simp [Reason.ofCounts, hne, hf]

theorem reasons_of_none_failed {scanned : Int} (hs : 0 < scanned) :
    Reason.ofCounts scanned 0 = [] := by
  have hne : scanned ≠ 0 := by omega
  simp [Reason.ofCounts, hne]

theorem exists_ending (clock : Clock) (profile : Profile) (es : List Entry) :
    ∃ e, (ofEntries clock profile es).EndsAs e := by
  cases es with
  | nil =>
    have hmethods : (ofEntries clock profile []).methods = [] := List.mergeSort_nil
    exact ⟨.vacant, .vacant rfl rfl rfl rfl rfl hmethods⟩
  | cons e es =>
    generalize hr : ofEntries clock profile (e :: es) = r
    have hscanned : 0 < r.stats.entriesScanned := by
      rw [← hr]
      exact Int.natCast_pos.2 (Nat.succ_pos _)
    have hverdict : r.verdict =
        (Verdict.ofReasons (Reason.ofCounts r.stats.entriesScanned r.failures.length)).label := by
      rw [← hr]
      rfl
    have hreasons : r.reasons =
        (Reason.ofCounts r.stats.entriesScanned r.failures.length).map Reason.label := by
      rw [← hr]
      rfl
    have hwarnings : r.warnings = r.failures.map Failure.warning := by
      rw [← hr]
      rfl
    cases hf : r.failures with
    | nil =>
      rw [hf, List.length_nil, Int.natCast_zero, reasons_of_none_failed hscanned] at hverdict hreasons
      rw [hf] at hwarnings
      exact ⟨.complete, .complete hverdict hreasons hwarnings hf hscanned⟩
    | cons f fs =>
      have hfailed : (0 : Int) < r.failures.length := by
        rw [hf]
        exact Int.natCast_pos.2 (Nat.succ_pos _)
      rw [reasons_of_failed hscanned hfailed] at hverdict hreasons
      exact ⟨.damaged, .damaged hverdict hreasons (by simp [hf]) hwarnings⟩

theorem consistent_ofEntries (clock : Clock) (profile : Profile) (h : ∀ e ∈ es, e.Contained) :
    (ofEntries clock profile es).Consistent none := by
  have hcovers := covers_ofEntries clock profile es
  have hcounts := Census.counts_ofList (es.filterMap (Entry.major? profile.codeAttribute))
  obtain ⟨ending, hending⟩ := exists_ending clock profile es
  exact {
    scanned := by
      have hlen := @Entry.length_eq profile.codeAttribute es h
      have htotal := hcounts.total
      rw [hcovers.entriesScanned, hcovers.failures, hcovers.classVersions]
      omega
    ascending := (ofEntries clock profile es).classVersions.ascending
    versions := by
      intro d hd
      obtain ⟨e, -, hn⟩ := List.mem_filterMap.1 (hcounts.mem d hd)
      obtain ⟨hnonneg, hlt⟩ := Entry.major_lt hn
      exact ⟨hnonneg, hlt, hcounts.one_le d hd⟩
    sorted := Row.pairwise_ranked _
    sizes := by
      intro m hm
      obtain ⟨e, -, hm⟩ := List.mem_flatMap.1 ((Row.ranked_perm _).mem_iff.1 hm)
      exact Entry.size_lt_of_mem_rows m hm
    length := congrArg Int.ofNat (Row.ranked_perm _).length_eq
    ending := ⟨ending, hending, fun _ h' => h'.unique hending⟩
    accepts := hending.accept_iff }

end Report

theorem Aggregation.consistent {clock : Clock} {profile : Profile} {es : List Entry} {r : Report}
    (h : (ofEntries clock profile es).result = .ok r) : r.Consistent none := by
  rw [eq_of_result h]
  exact Report.consistent_ofEntries clock profile (contained_of_result h)

namespace Analysis

theorem consistent {host : Host} {profile : Profile} {data : ByteArray} {r : Report}
    (h : (ofBytes host profile data).result = .ok r) : r.Consistent none := by
  unfold ofBytes at h
  split at h
  · cases h
  · split at h
    · cases h
    · next ms _ => exact Aggregation.consistent (Except.mapError_eq_ok_iff.1 h)

end Analysis

namespace Run

theorem consistent_report {host : Host} {o : Order} {data : ByteArray} {r : Report}
    (h : (report host o data).1 = .ok r) : r.Consistent none := by
  unfold report at h
  dsimp only at h
  split at h
  · cases h
    exact Report.consistent_rejected _ _ _
  · exact Analysis.consistent h

/-- A run names the archive in a report, and keeps as many methods as its order allows. -/
theorem exists_of_finished {o : Order} {data : ByteArray} {r r' : Report}
    (h : finished o data r = .ok r') :
    ∃ methods path digest,
      r' = { r with methods := methods, archivePath := path, archiveDigest := digest } ∧
        methods.Sublist r.methods ∧
        (methods.length : Int) = o.limit.elim (r.methods.length : Int) fun n =>
          min n r.methods.length := by
  unfold finished at h
  cases hl : o.limit with
  | none =>
    rw [hl] at h
    cases h
    exact ⟨_, _, _, rfl, List.Sublist.refl _, rfl⟩
  | some n =>
    rw [hl] at h
    by_cases hn : n < 0
    · simp [Row.top, hn] at h
    · simp only [Row.top, hn, if_false] at h
      cases h
      refine ⟨_, _, _, rfl, List.take_sublist _ _, ?_⟩
      rw [List.length_take, Option.elim_some]
      omega

theorem consistent_finished {o : Order} {data : ByteArray} {r r' : Report}
    (hr : r.Consistent none) (h : finished o data r = .ok r') : r'.Consistent o.limit := by
  obtain ⟨methods, path, digest, rfl, hm, hlen⟩ := exists_of_finished h
  obtain ⟨e, he, _⟩ := hr.ending
  have hfound : (r.methods.length : Int) = r.stats.methodsFound := hr.length
  have hends := he.restrict hm path digest
  exact {
    scanned := hr.scanned
    ascending := hr.ascending
    versions := hr.versions
    sorted := hr.sorted.sublist hm
    sizes := fun m hmem => hr.sizes m (hm.subset hmem)
    length := by
      rw [hfound] at hlen
      exact hlen
    ending := ⟨e, hends, fun _ h' => h'.unique hends⟩
    accepts := hr.accepts }

theorem exists_of_result {host : Host} {tree : Files.Tree} {o : Order} {r : Report}
    (h : (ofOrder host tree o).result = .ok r) :
    ∃ data r', (report host o data).1 = .ok r' ∧ finished o data r' = .ok r := by
  unfold ofOrder at h
  dsimp only at h
  split at h
  · cases h
  · cases h
  split at h
  · cases h
  next data _ =>
  split at h
  · cases h
  next r' journal hreport =>
  split at h
  · cases h
  next r'' hfinished =>
  split at h
  · cases h
  cases h
  exact ⟨data, r', by rw [hreport], hfinished⟩

end Run

/-- Every report agrees with itself: that of an analysis, with all methods, and that of a run, with
as many as its order allows. -/
theorem reports_consistent (host : Host) (profile : Profile) (data : ByteArray) (tree : Files.Tree)
    (o : Order) :
    (∀ r, (Analysis.ofBytes host profile data).result = .ok r → r.Consistent none) ∧
      ∀ r, (Run.ofOrder host tree o).result = .ok r → r.Consistent o.limit := by
  constructor
  · intro r h
    exact Analysis.consistent h
  · intro r h
    obtain ⟨bytes, r', hr, hf⟩ := Run.exists_of_result h
    exact Run.consistent_finished (Run.consistent_report hr) hf

/-- An order for an archive whose report is to keep no methods. -/
def unlisted : Order := { path := "a.jar", limit := some 0 }

/-- A tree with an archive of which one class file fails, and nothing else. -/
def damagedTree : Files.Tree :=
  { nodes := [(⟨.above 0, ["a.jar"]⟩, .file (Analysis.twoMembers 0x43))] }

theorem exists_report_twoMembers :
    ∃ r, (Analysis.ofBytes .bare .standard (Analysis.twoMembers 0x43)).result = .ok r ∧
      r.failures ≠ [] ∧ r.stats.methodsFound = 1 := by
  have ho := Analysis.enter_twoMembers 0x43 (by decide +kernel)
  have hl := Analysis.list_openedWith 0x43
  have hfirst := Analysis.content_of_read (Analysis.read_firstMember .none)
  have hsecond : (Analysis.entry .none (Analysis.openedWith 0x43)
      Analysis.secondMember).FailsWith "Code" _ :=
    Analysis.entry_failsWith (Analysis.read_secondMember .none)
  have hentries : Analysis.entries .none .standard (Analysis.openedWith 0x43) Analysis.bothMembers =
      Analysis.bothMembers.map (Analysis.entry .none (Analysis.openedWith 0x43)) := by
    rw [Analysis.entries_eq, Analysis.selected_bothMembers]
  have hcontained :
      ∀ e ∈ Analysis.entries .none .standard (Analysis.openedWith 0x43) Analysis.bothMembers,
      e.Contained := by
    rw [hentries]
    intro e he
    obtain ⟨m, hm, rfl⟩ := List.mem_map.1 he
    rcases List.mem_pair.1 hm with rfl | rfl
    · exact Entry.Ordinary.contained (.inl ⟨_, hfirst⟩)
    · exact hsecond.ordinary.contained
  obtain ⟨r, hr, hc⟩ := Aggregation.exists_covers .frozen .standard hcontained
  rw [hentries] at hc
  refine ⟨r, ?_, ?_, ?_⟩
  · refine (Analysis.result_of_listed .bare .standard ho hl).trans ?_
    exact congrArg (Except.mapError AnalysisFault.reading) hr
  · have hmem : Analysis.secondMember ∈ Analysis.bothMembers := List.mem_pair.2 (.inr rfl)
    rw [hc.failures]
    exact List.ne_nil_of_mem
      (List.mem_filterMap.2 ⟨_, List.mem_map_of_mem hmem, hsecond.failure?_eq⟩)
  · rw [hc.methodsFound, List.flatMap_map, show Profile.standard.codeAttribute = "Code" from rfl,
      Analysis.rows_bothMembers]
    rfl

/-- A run reports on the archive of that tree if its analysis does. -/
theorem exists_run_damagedTree {r : Report}
    (h : (Analysis.ofBytes .bare .standard (Analysis.twoMembers 0x43)).result = .ok r) :
    ∃ r', (Run.ofOrder .bare damagedTree unlisted).result = .ok r' := by
  have hreport : (Run.report .bare unlisted (Analysis.twoMembers 0x43)).1 = .ok r := by
    rw [Run.report_of_not_container]
    · exact h
    · intro fault hf
      rw [show unlisted.profile = .standard from rfl, h] at hf
      cases hf
  have hexists : damagedTree.exists (.ofString unlisted.path) = .ok true := by decide +kernel
  have hplace : damagedTree.resolve (.ofString unlisted.path) = .ok ⟨.above 0, ["a.jar"]⟩ := by
    decide +kernel
  have hread : damagedTree.read (.ofString unlisted.path) = .ok (Analysis.twoMembers 0x43) := by
    rw [Files.Tree.read, hplace]
    rfl
  simp only [Run.ofOrder, hexists, hread]
  generalize Run.report .bare unlisted (Analysis.twoMembers 0x43) = found at hreport
  obtain ⟨_, journal⟩ := found
  dsimp only at hreport
  subst hreport
  exact ⟨_, rfl⟩

/-- The archive with a class file that fails has a report with one method, and a run that keeps no
methods has one, too. -/
theorem reports_consistent_damaged :
    ∃ r r', (Analysis.ofBytes .bare .standard (Analysis.twoMembers 0x43)).result = .ok r ∧
      r.Consistent none ∧ r.EndsAs .damaged ∧ r.stats.methodsFound = 1 ∧
      (Run.ofOrder .bare damagedTree unlisted).result = .ok r' ∧ r'.Consistent (some 0) := by
  obtain ⟨r, hr, hfailed, hfound⟩ := exists_report_twoMembers
  obtain ⟨r', hr'⟩ := exists_run_damagedTree hr
  obtain ⟨hconsistent, hlimited⟩ :=
    reports_consistent .bare .standard (Analysis.twoMembers 0x43) damagedTree unlisted
  obtain ⟨e, he, -⟩ := (hconsistent r hr).ending
  cases he.eq_damaged hfailed
  exact ⟨r, r', hr, hconsistent r hr, he, hfound, hr', hlimited r' hr'⟩

end JarRank
