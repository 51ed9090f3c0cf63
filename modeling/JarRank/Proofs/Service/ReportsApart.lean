import JarRank.Proofs.Service.RankingOutcome

/-!
# The reports on two archives

Of the path of an archive, only the stem of its name decides where its report is written. If two
archives are asked for one after the other, the second report is in the place of the first exactly
if their names have the same stem. The first report is lost then, and otherwise both are there.
In the root directory one dot and two dots lead to the same place, so that there the reports on
`..jar` and `...jar` meet as well.
-/
namespace JarRank

open Files (Path Place Tree)

namespace Files.Place

variable {p q : Place} {name name' : String}

theorem child_inj : p.child name = q.child name' ↔ p = q ∧ name = name' := by
  obtain ⟨base, names⟩ := p
  obtain ⟨base', names'⟩ := q
  simp only [child, mk.injEq, List.cons.injEq]
  tauto

theorem length_parent_le (p : Place) : p.parent.names.length ≤ p.names.length := by
  obtain ⟨base, names⟩ := p
  cases names with
  | nil => cases base <;> exact Nat.le_refl _
  | cons name names => exact Nat.le_succ _

theorem child_ne (h : q.names.length ≤ p.names.length) : p.child name ≠ q := by
  rintro rfl
  exact Nat.not_succ_le_self _ h

theorem parent_eq_self_iff : p.parent = p ↔ p = ⟨.root, []⟩ := by
  obtain ⟨base, names⟩ := p
  cases names with
  | nil => cases base <;> simp [parent]
  | cons name names => simp [parent]

end Files.Place

theorem Run.keepsDirectories_write {tree after : Tree} {outputDir : Option Path} {r : Report}
    (h : Run.write tree outputDir r = .ok after) : tree.KeepsDirectories after := by
  cases outputDir with
  | none =>
      cases h
      exact .refl tree
  | some dir =>
      obtain ⟨-, made, hmade, hw⟩ := write_some_eq_ok_iff.1 h
      have hkeeps := (Tree.addsDirectories_makeDirectories hmade).keepsDirectories
      exact hkeeps.trans (Tree.keepsDirectories_write hw)

namespace Service

variable {host host₁ host₂ : Host} {s : Settings} {tree mid after : Tree} {r r₁ r₂ : Request}
  {report : Report}

namespace Ranking

/-! ### Where reports meet -/

/-- Where the report is, given the place of the directory of results and the stem of the archive's
name. -/
def reportPlace (results : Place) (stem : String) : Place :=
  (if stem = "." then results else if stem = ".." then results.parent else results.child stem).child
    Report.fileName

/-- The reports on archives whose names have these stems are in one place. -/
def Meet (results : Place) (stem stem' : String) : Prop :=
  stem = stem' ∨
    results = ⟨.root, []⟩ ∧ (stem = "." ∧ stem' = ".." ∨ stem = ".." ∧ stem' = ".")

theorem reportPlace_eq_iff {results : Place} {stem stem' : String} :
    reportPlace results stem = reportPlace results stem' ↔ Meet results stem stem' := by
  have hself : ∀ name, results.child name ≠ results := fun _ => Place.child_ne (Nat.le_refl _)
  have hparent : ∀ name, results.child name ≠ results.parent := fun _ =>
    Place.child_ne results.length_parent_le
  have hdots : ("." : String) ≠ ".." := by decide
  unfold reportPlace Meet
  rw [Place.child_inj, ← Place.parent_eq_self_iff]
  split_ifs <;> simp_all [Place.child_inj, eq_comm]

theorem eq_reportPlace_of_follow {t : Tree} {results place : Place} {stem : String} (hne : stem ≠ "")
    (h : t.follow results ([stem].filter Path.isPart ++ [Report.fileName]) = .ok place) :
    place = reportPlace results stem := by
  obtain ⟨hplain, hdot, hdots⟩ := place_of_follow hne h
  unfold reportPlace
  split_ifs with hd hdd
  · exact hdot hd
  · exact hdots hdd
  · exact hplain hd hdd

/-! ### One request -/

/-- A report is that on the archive of a request. -/
structure IsOn (host : Host) (s : Settings) (tree : Tree) (r : Request) (report : Report) :
    Prop where
  result : (Run.ofOrder host tree (bareOrder s r)).result = .ok report
  archivePath : report.archivePath = some (archive s r).toString
  archiveDigest : ∃ data, tree.find? (archive s r) = some (.file data) ∧
    report.archiveDigest = some (Sha256.hexDigest data)

/-- A request has left a report at a place, given the place of the directory of results. -/
structure Leaves (s : Settings) (r : Request) (tree after : Tree) (report : Report)
    (results place : Place) : Prop where
  keepsDirectories : tree.KeepsDirectories after
  found : after.resolve s.results = .ok results
  path : ∀ dir, outputDir s r = some dir → after.resolve (Run.reportPath dir) = .ok place
  eq_reportPlace : place = reportPlace results (archive s r).stem
  content : after.file? place = some report.document.toUTF8
  only : ∀ q, q ≠ place → after.file? q = tree.file? q

/-- A request is answered with a report only if it has been written wherever it was to be. -/
theorem Ends.write_of_answered {o : Outcome} (h : Ends host s tree r o) (hs : o.reply.status = 200) :
    ∃ data report, Archived s tree r data ∧
      (Run.ofOrder host tree (bareOrder s r)).result = .ok report ∧
      Run.write tree (outputDir s r) report = .ok o.tree := by
  cases h with
  | reported hdata _ _ hresult hw => exact ⟨_, _, hdata, hresult, hw⟩
  | _ => cases hs

theorem isOn_of_result {data : ByteArray} (hdata : Archived s tree r data)
    (hresult : (Run.ofOrder host tree (bareOrder s r)).result = .ok report) :
    IsOn host s tree r report := by
  obtain ⟨found, -, rfl⟩ := completed_of_bareOrder hresult hdata
  have hpath : (Run.completed (bareOrder s r) data found).archivePath =
      some (Path.ofString (order s r).path).toString := rfl
  rw [ofString_order] at hpath
  exact ⟨hresult, hpath, data, hdata.find, rfl⟩

theorem Ends.exists_leaves {o : Outcome} (h : Ends host s tree r o)
    (hwrites : r.writesOutputs = true) (hs : o.reply.status = 200) :
    ∃ report results place,
      IsOn host s tree r report ∧ Leaves s r tree o.tree report results place := by
  obtain ⟨data, report, hdata, hresult, hwrite⟩ := h.write_of_answered hs
  have hout : outputDir s r = some (s.results.join (.ofString (archive s r).stem)) := by
    rw [outputDir, if_pos hwrites]
  obtain ⟨-, hpath⟩ := reportPath_outputDir hdata.file hout
  have hkeeps := Run.keepsDirectories_write hwrite
  rw [hout] at hwrite
  obtain ⟨place, hplace, hcontent, honly⟩ := Run.frame_of_write hwrite
  have hbehind := hplace
  rw [hpath] at hbehind
  obtain ⟨results, hresults, hfollow⟩ := Tree.exists_of_resolve_append hbehind
  have hne : (archive s r).stem ≠ "" := (name_archive hdata.file).1.stemOf_ne.1
  have hstem := eq_reportPlace_of_follow hne hfollow
  refine ⟨report, results, place, isOn_of_result hdata hresult, hkeeps, hresults, fun dir hdir => ?_,
    hstem, hcontent, honly⟩
  rw [← Option.some.inj (hout.symm.trans hdir)]
  exact hplace

theorem archive_eq_of_toString_eq (h : (archive s r₁).toString = (archive s r₂).toString) :
    archive s r₁ = archive s r₂ := by
  have hread : ∀ r, Path.ofString (archive s r).toString = archive s r := by
    simpa only [order] using ofString_order s
  rw [← hread r₁, h, hread r₂]

/-- Reports on archives with two paths have two documents. -/
theorem document_ne {report₁ report₂ : Report} (h₁ : IsOn host₁ s tree r₁ report₁)
    (h₂ : IsOn host₂ s mid r₂ report₂) (hne : archive s r₁ ≠ archive s r₂) :
    report₁.document ≠ report₂.document := fun hdocument =>
  hne (archive_eq_of_toString_eq
    (Report.archivePath_eq_of_document_eq h₁.archivePath h₂.archivePath hdocument))

/-! ### Two requests -/

/-- What two requests leave, one after the other. -/
structure Both (host₁ host₂ : Host) (s : Settings) (tree mid after : Tree) (r₁ r₂ : Request)
    (report₁ report₂ : Report) (results place₁ place₂ : Place) : Prop where
  first : IsOn host₁ s tree r₁ report₁
  second : IsOn host₂ s mid r₂ report₂
  found : after.resolve s.results = .ok results
  path₁ : ∀ dir, outputDir s r₁ = some dir → after.resolve (Run.reportPath dir) = .ok place₁
  path₂ : ∀ dir, outputDir s r₂ = some dir → after.resolve (Run.reportPath dir) = .ok place₂
  written₁ : mid.file? place₁ = some report₁.document.toUTF8
  written₂ : after.file? place₂ = some report₂.document.toUTF8
  /-- Each report is there, unless they meet. -/
  kept : ¬Meet results (archive s r₁).stem (archive s r₂).stem →
    after.file? place₁ = some report₁.document.toUTF8
  /-- Where they meet, the first is lost. -/
  lost : Meet results (archive s r₁).stem (archive s r₂).stem →
    place₁ = place₂ ∧ after.file? place₁ ≠ mid.file? place₁

theorem both_of_leaves {report₁ report₂ : Report} {results₁ results₂ place₁ place₂ : Place}
    (h₁ : IsOn host₁ s tree r₁ report₁) (hl₁ : Leaves s r₁ tree mid report₁ results₁ place₁)
    (h₂ : IsOn host₂ s mid r₂ report₂) (hl₂ : Leaves s r₂ mid after report₂ results₂ place₂)
    (hne : archive s r₁ ≠ archive s r₂) :
    Both host₁ host₂ s tree mid after r₁ r₂ report₁ report₂ results₂ place₁ place₂ := by
  -- The second request takes no directory away, so that the paths of the first lead where they did.
  have hresults : results₁ = results₂ :=
    Except.ok.inj ((hl₂.keepsDirectories.resolve hl₁.found).symm.trans hl₂.found)
  have hmeet : Meet results₂ (archive s r₁).stem (archive s r₂).stem ↔ place₁ = place₂ := by
    rw [hl₁.eq_reportPlace, hl₂.eq_reportPlace, hresults, reportPlace_eq_iff]
  exact {
    first := h₁
    second := h₂
    found := hl₂.found
    path₁ := fun dir hdir => hl₂.keepsDirectories.resolve (hl₁.path dir hdir)
    path₂ := hl₂.path
    written₁ := hl₁.content
    written₂ := hl₂.content
    kept := fun hm => (hl₂.only place₁ (mt hmeet.2 hm)).trans hl₁.content
    lost := fun hm => by
      have hplace := hmeet.1 hm
      refine ⟨hplace, fun hsame => document_ne h₁ h₂ hne ?_⟩
      rw [hl₁.content, hplace, hl₂.content] at hsame
      exact (String.toByteArray_inj.1 (Option.some.inj hsame)).symm }

end Ranking

/-- A body is sent to where rankings are asked for. -/
def asked (host : Host) (s : Settings) (tree : Tree) (body : Bytes) : Outcome :=
  handle host s tree "POST" "/ranker/run" body

theorem asked_of_form {body : Bytes} (h : Request.ofBytes body = .ok r) :
    asked host s tree body = Ranking.handle host s tree r := handle_of_form h

theorem exists_leaves_asked {body : Bytes} (h : Request.ofBytes body = .ok r)
    (hwrites : r.writesOutputs = true) (hs : (asked host s tree body).reply.status = 200) :
    ∃ report results place, Ranking.IsOn host s tree r report ∧
      Ranking.Leaves s r tree (asked host s tree body).tree report results place := by
  rw [asked_of_form h] at hs ⊢
  exact (Ranking.ends_handle host s tree r).exists_leaves hwrites hs

/-- Two requests, one after the other, for reports on archives in two places to be written. Both are
answered with a report. -/
structure InTurn (host₁ host₂ : Host) (s : Settings) (tree : Tree) (body₁ body₂ : Bytes)
    (r₁ r₂ : Request) : Prop where
  form₁ : Request.ofBytes body₁ = .ok r₁
  form₂ : Request.ofBytes body₂ = .ok r₂
  writes₁ : r₁.writesOutputs = true
  writes₂ : r₂.writesOutputs = true
  answered₁ : (asked host₁ s tree body₁).reply.status = 200
  answered₂ : (asked host₂ s (asked host₁ s tree body₁).tree body₂).reply.status = 200
  apart : tree.resolve (Ranking.archive s r₁) ≠ tree.resolve (Ranking.archive s r₂)

theorem InTurn.archive_ne {body₁ body₂ : Bytes} (h : InTurn host₁ host₂ s tree body₁ body₂ r₁ r₂) :
    Ranking.archive s r₁ ≠ Ranking.archive s r₂ := fun he => h.apart (by rw [he])

/-- Of two archives that are asked for one after the other, each has its own report in the end, with
its own path and digest, unless the names of the archives have the same stem; in the root
directory, unless the stems are one dot and two dots. In these cases the second report has
replaced the first. -/
theorem reports_apart {body₁ body₂ : Bytes} (h : InTurn host₁ host₂ s tree body₁ body₂ r₁ r₂) :
    ∃ report₁ report₂ results place₁ place₂,
      Ranking.Both host₁ host₂ s tree (asked host₁ s tree body₁).tree
        (asked host₂ s (asked host₁ s tree body₁).tree body₂).tree r₁ r₂ report₁ report₂
          results place₁ place₂ := by
  obtain ⟨report₁, results₁, place₁, hon₁, hleaves₁⟩ :=
    exists_leaves_asked h.form₁ h.writes₁ h.answered₁
  obtain ⟨report₂, results₂, place₂, hon₂, hleaves₂⟩ :=
    exists_leaves_asked h.form₂ h.writes₂ h.answered₂
  exact ⟨report₁, report₂, results₂, place₁, place₂,
    Ranking.both_of_leaves hon₁ hleaves₁ hon₂ hleaves₂ h.archive_ne⟩

/-- A tree with three archives without members. Two of them have the same name. -/
def threeArchives : Tree :=
  { nodes := [(⟨.above 0, ["a.jar", "archives"]⟩, .file emptyArchive),
      (⟨.above 0, ["b.jar", "archives"]⟩, .file emptyArchive),
      (⟨.above 0, ["a.jar", "b", "archives"]⟩, .file emptyArchive),
      (⟨.above 0, ["b", "archives"]⟩, .directory), (⟨.above 0, ["archives"]⟩, .directory)] }

/-- The tree after the report on `a.jar` has been asked for. -/
def askedOnce : Tree := (asked .bare localSettings threeArchives (writingForm "a.jar")).tree

/-- The tree after another report has been asked for as well. -/
def askedTwice (name : String) : Tree := (asked .bare localSettings askedOnce (writingForm name)).tree

theorem inTurn_threeArchives {name : String}
    (hform : (Request.ofBytes (writingForm name)).toOption = some ⟨name, none, true⟩)
    (hanswered : (Ranking.handle .bare localSettings (Ranking.handle .bare localSettings threeArchives
      ⟨"a.jar", none, true⟩).tree ⟨name, none, true⟩).reply.status = 200)
    (hapart : threeArchives.resolve (Ranking.archive localSettings ⟨name, none, true⟩) ≠
      .ok ⟨.above 0, ["a.jar", "archives"]⟩) :
    InTurn .bare .bare localSettings threeArchives (writingForm "a.jar") (writingForm name)
      ⟨"a.jar", none, true⟩ ⟨name, none, true⟩ := by
  have hform₁ : Request.ofBytes (writingForm "a.jar") = .ok ⟨"a.jar", none, true⟩ :=
    Except.toOption_eq_some_iff.1 (by decide +kernel)
  have hform₂ := Except.toOption_eq_some_iff.1 hform
  have hplace : threeArchives.resolve (Ranking.archive localSettings ⟨"a.jar", none, true⟩) =
      .ok ⟨.above 0, ["a.jar", "archives"]⟩ := by decide +kernel
  refine ⟨hform₁, hform₂, rfl, rfl, ?_, ?_, fun he => hapart (he.symm.trans hplace)⟩
  · rw [asked_of_form hform₁]
    decide +kernel
  · rw [asked_of_form hform₁, asked_of_form hform₂]
    exact hanswered

/-- The reports on `a.jar` and `b.jar` are both there. -/
theorem reports_apart_twoNames :
    InTurn .bare .bare localSettings threeArchives (writingForm "a.jar") (writingForm "b.jar")
        ⟨"a.jar", none, true⟩ ⟨"b.jar", none, true⟩ ∧
      ∃ place₁ place₂ report₁ report₂,
        (askedTwice "b.jar").file? place₁ = some (Report.document report₁).toUTF8 ∧
        (askedTwice "b.jar").file? place₂ = some (Report.document report₂).toUTF8 ∧
        report₁.archivePath = some "archives/a.jar" ∧ report₂.archivePath = some "archives/b.jar" := by
  have hinTurn := @inTurn_threeArchives "b.jar" (by decide +kernel) (by decide +kernel)
    (by decide +kernel)
  obtain ⟨report₁, report₂, results, place₁, place₂, hboth⟩ := reports_apart hinTurn
  have hstems : (Ranking.archive localSettings ⟨"a.jar", none, true⟩).stem = "a" ∧
      (Ranking.archive localSettings ⟨"b.jar", none, true⟩).stem = "b" := by decide +kernel
  have happart : ¬Ranking.Meet results (Ranking.archive localSettings ⟨"a.jar", none, true⟩).stem
      (Ranking.archive localSettings ⟨"b.jar", none, true⟩).stem := by
    rw [hstems.1, hstems.2]
    rintro (h | ⟨-, h⟩)
    · exact absurd h (by decide)
    · exact absurd h (by decide)
  have hpaths : (Ranking.archive localSettings ⟨"a.jar", none, true⟩).toString = "archives/a.jar" ∧
      (Ranking.archive localSettings ⟨"b.jar", none, true⟩).toString = "archives/b.jar" := by
    decide +kernel
  refine ⟨hinTurn, place₁, place₂, report₁, report₂, hboth.kept happart, hboth.written₂, ?_, ?_⟩
  · rw [hboth.first.archivePath, hpaths.1]
  · rw [hboth.second.archivePath, hpaths.2]

/-- The report on `b/a.jar` takes the place of that on `a.jar`. -/
theorem second_replaces_first :
    InTurn .bare .bare localSettings threeArchives (writingForm "a.jar") (writingForm "b/a.jar")
        ⟨"a.jar", none, true⟩ ⟨"b/a.jar", none, true⟩ ∧
      ∃ report₁ place, report₁.archivePath = some "archives/a.jar" ∧
        askedOnce.file? place = some (Report.document report₁).toUTF8 ∧
        (askedTwice "b/a.jar").file? place ≠ askedOnce.file? place := by
  have hinTurn := @inTurn_threeArchives "b/a.jar" (by decide +kernel) (by decide +kernel)
    (by decide +kernel)
  have hstems : (Ranking.archive localSettings ⟨"a.jar", none, true⟩).stem =
      (Ranking.archive localSettings ⟨"b/a.jar", none, true⟩).stem := by decide +kernel
  have hpath : (Ranking.archive localSettings ⟨"a.jar", none, true⟩).toString = "archives/a.jar" := by
    decide +kernel
  obtain ⟨report₁, _, place₁, hon₁, hleaves₁⟩ :=
    exists_leaves_asked hinTurn.form₁ hinTurn.writes₁ hinTurn.answered₁
  obtain ⟨report₂, _, place₂, hon₂, hleaves₂⟩ :=
    exists_leaves_asked hinTurn.form₂ hinTurn.writes₂ hinTurn.answered₂
  have hboth := Ranking.both_of_leaves hon₁ hleaves₁ hon₂ hleaves₂ hinTurn.archive_ne
  refine ⟨hinTurn, report₁, place₁, ?_, hboth.written₁, (hboth.lost (.inl hstems)).2⟩
  rw [hon₁.archivePath, hpath]

end Service
end JarRank
