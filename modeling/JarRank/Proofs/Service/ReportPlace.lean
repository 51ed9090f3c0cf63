import JarRank.Proofs.Files.Path
import JarRank.Proofs.Ranking.Effects
import JarRank.Service.Endpoint

/-!
# Where reports go

A request to the service changes at most one file, that of a report, and only if
it asks for that. The report is in a directory of its own under the directory of
results, which has the stem of the archive's name. Two kinds of names have a stem
that is no name: of `..jar` it is one dot, and the report is in the directory of
results itself; of `...jar` it is two dots, and the report is in the directory above.
-/
namespace JarRank

open Files (Path Place Tree)

namespace Files.Tree

variable {t : Tree} {path : Path}

theorem find?_of_isFile (h : t.isFile path = .ok true) :
    ∃ data, t.find? path = some (.file data) := by
  rcases t.find_or_ask path with ⟨node, hfind⟩ | hno | ⟨fault, hfault⟩
  · rw [isFile_of_find hfind] at h
    cases node with
    | directory => cases h
    | file data => exact ⟨data, hfind⟩
  · cases (hno _).symm.trans h
  · cases (hfault _).symm.trans h

/-- The path of a file has a name that is not two dots. -/
theorem name_of_isFile (h : t.isFile path = .ok true) : path.parts ≠ [] ∧ path.name ≠ ".." := by
  obtain ⟨data, hfind⟩ := find?_of_isFile h
  obtain ⟨place, hr, hn⟩ := node?_of_find hfind
  rw [← not_or]
  intro hdots
  rw [node?_of_resolve_dots hr hdots] at hn
  cases hn

end Files.Tree

namespace Service

variable {host : Host} {s : Settings} {tree : Tree} {r : Request} {place : Place}

namespace Ranking

/-- The name of an archive that is a file is a name, and not two dots. -/
theorem name_archive (h : tree.isFile (archive s r) = .ok true) :
    Path.IsName (archive s r).name ∧ (archive s r).name ≠ ".." := by
  obtain ⟨hne, hdots⟩ := Tree.name_of_isFile h
  refine ⟨?_, hdots⟩
  have hname : (archive s r).name = (archive s r).parts.getLast hne := by
    rw [Path.name, List.getLast?_eq_some_getLast hne, Option.getD_some]
  rw [hname]
  exact Path.isName_of_mem_join (fun _ => Path.isName_of_mem_parts)
    (fun _ => Path.isName_of_mem_parts) _ (List.getLast_mem hne)

/-- The stem of a file's name is one dot or two only as a name with a suffix. -/
theorem stem_archive_eq_iff (h : tree.isFile (archive s r) = .ok true) {stem : String}
    (hs : stem = "." ∨ stem = "..") :
    (archive s r).stem = stem ↔ ∃ suffix, Path.Splits (archive s r).name stem suffix := by
  constructor
  · intro he
    obtain ⟨hname, hdots⟩ := name_archive h
    rcases Path.stemOf_eq_self_or_splits (archive s r).name with hself | ⟨suffix, hsplit⟩
    · rw [← Path.stem, he] at hself
      rcases hs with rfl | rfl
      · exact (hname.ne_dot hself.symm).elim
      · exact (hdots hself.symm).elim
    · rw [← Path.stem, he] at hsplit
      exact ⟨suffix, hsplit⟩
  · intro he
    obtain ⟨suffix, hsplit⟩ := he
    exact hsplit.stemOf_eq

/-- The path of the report, behind that of the directory of results. -/
theorem reportPath_outputDir (h : tree.isFile (archive s r) = .ok true) {dir : Path}
    (ho : outputDir s r = some dir) :
    r.writesOutputs ∧ Run.reportPath dir = ⟨s.results.root, s.results.parts ++
      ([(archive s r).stem].filter Path.isPart ++ [Report.fileName])⟩ := by
  have hslash := (name_archive h).1.stemOf_ne.2
  unfold outputDir at ho
  split at ho
  · next hw =>
    refine ⟨hw, ?_⟩
    rw [← Option.some.inj ho, Path.stem, Path.ofString_of_no_slash hslash, Run.reportPath,
      Path.join_of_relative rfl, Path.join_of_relative rfl, List.append_assoc]
  · cases ho

theorem follow_fileName_iff {t : Tree} {p q : Place} :
    t.follow p [Report.fileName] = .ok q ↔
      t.Opens p Report.fileName ∧ q = p.child Report.fileName := by
  have hname : Report.fileName ≠ ".." := by decide
  rw [Tree.follow_cons_eq_ok_iff, if_neg hname]
  simp [Tree.follow, eq_comm]

/-- Where a stem and the report's name lead to. -/
theorem place_of_follow {t : Tree} {dir : Place} {stem : String} (hne : stem ≠ "")
    (h : t.follow dir ([stem].filter Path.isPart ++ [Report.fileName]) = .ok place) :
    (stem ≠ "." → stem ≠ ".." → place = (dir.child stem).child Report.fileName) ∧
      (stem = "." → place = dir.child Report.fileName) ∧
      (stem = ".." → place = dir.parent.child Report.fileName) := by
  by_cases hdot : stem = "."
  · have hpart : [stem].filter Path.isPart = [] := by simp [hdot, Path.isPart]
    rw [hpart, List.nil_append, follow_fileName_iff] at h
    refine ⟨fun hn => (hn hdot).elim, fun _ => h.2, fun hdots => ?_⟩
    rw [hdot] at hdots
    exact absurd hdots (by decide)
  · have hpart : [stem].filter Path.isPart = [stem] := by simp [hdot, hne, Path.isPart]
    rw [hpart, List.singleton_append, Tree.follow_cons_eq_ok_iff, follow_fileName_iff] at h
    obtain ⟨-, -, hplace⟩ := h
    refine ⟨fun _ hdots => ?_, fun h => (hdot h).elim, fun hdots => ?_⟩
    · rwa [if_neg hdots] at hplace
    · rwa [if_pos hdots] at hplace

/-- A request for an archive that is a file leaves the tree that its run leaves. -/
theorem tree_handle (host : Host) (h : tree.isFile (archive s r) = .ok true) :
    (handle host s tree r).tree = (Run.ofOrder host tree (order s r)).tree := by
  unfold handle
  rw [h]
  dsimp only
  generalize Run.ofOrder host tree (order s r) = run
  cases run.result <;> rfl

/-- A request changes a file only by writing a report. -/
theorem exists_of_changed
    (h : (handle host s tree r).tree.file? place ≠ tree.file? place) :
    tree.isFile (archive s r) = .ok true ∧ ∃ dir report, outputDir s r = some dir ∧
      (handle host s tree r).tree.resolve (Run.reportPath dir) = .ok place ∧
      (handle host s tree r).tree.file? place = some (Report.document report).toUTF8 := by
  have hfile : tree.isFile (archive s r) = .ok true := by
    unfold handle at h
    split at h
    · exact (h rfl).elim
    · exact (h rfl).elim
    · next hf => exact hf
  rw [tree_handle host hfile] at h ⊢
  rcases Run.tree_ofOrder host tree (order s r) with hsame | ⟨dir, report, ho, hw⟩
  · exact (h (hsame place)).elim
  · obtain ⟨reported, hr, hcontent, honly⟩ := Run.exists_of_write hw
    obtain rfl := honly place h
    exact ⟨hfile, dir, report, ho, hr, hcontent⟩

end Ranking

/-- Only a ranking that is asked for in a form which can be read changes files. -/
theorem exists_request_of_changed {method path : String} {body : Bytes}
    (h : (handle host s tree method path body).tree.file? place ≠ tree.file? place) :
    ∃ r, Request.ofBytes body = .ok r ∧
      (handle host s tree method path body).tree = (Ranking.handle host s tree r).tree := by
  have hunchanged : (handle host s tree method path body).tree = tree ∨
      (handle host s tree method path body).tree = (Ranking.handleBody host s tree body).tree := by
    unfold handle
    cases Route.find? path with
    | none => exact .inl (by dsimp only; split <;> rfl)
    | some route =>
        dsimp only
        split
        · exact .inl rfl
        · cases route
          case ranking => exact .inr rfl
          all_goals exact .inl rfl
  rcases hunchanged with ht | ht
  · rw [ht] at h
    exact (h rfl).elim
  · rw [ht] at h ⊢
    unfold Ranking.handleBody at h ⊢
    cases hr : Request.ofBytes body with
    | ok r => exact ⟨r, rfl, rfl⟩
    | error rejection => cases rejection <;> simp [hr] at h

/-- Every file that a request creates or changes is a report that was asked for. It is in a directory
below that of results which has the stem of the archive's name, unless that stem is one dot, and the
report is in the directory of results itself, or two dots, and the report is in the one above. -/
theorem report_placed (host : Host) (s : Settings) (tree : Tree) (method path : String) (body : Bytes)
    (h : (handle host s tree method path body).tree.file? place ≠ tree.file? place) :
    ∃ r dir report, Request.ofBytes body = .ok r ∧ r.writesOutputs ∧
      (handle host s tree method path body).tree.file? place = some (Report.document report).toUTF8 ∧
      (handle host s tree method path body).tree.resolve s.results = .ok dir ∧
      ((∀ suffix, ¬ Path.Splits (Ranking.archive s r).name "." suffix) →
        (∀ suffix, ¬ Path.Splits (Ranking.archive s r).name ".." suffix) →
          place = (dir.child (Ranking.archive s r).stem).child Report.fileName ∧
            (Ranking.archive s r).stem ≠ "" ∧ place.Below dir) ∧
      ((∃ suffix, Path.Splits (Ranking.archive s r).name "." suffix) →
        place = dir.child Report.fileName) ∧
      ((∃ suffix, Path.Splits (Ranking.archive s r).name ".." suffix) →
        place = dir.parent.child Report.fileName) := by
  obtain ⟨r, hr, ht⟩ := exists_request_of_changed h
  rw [ht] at h ⊢
  obtain ⟨hfile, out, report, hout, hplace, hcontent⟩ := Ranking.exists_of_changed h
  obtain ⟨hwrites, hpath⟩ := Ranking.reportPath_outputDir hfile hout
  rw [hpath] at hplace
  obtain ⟨dir, hdir, hfollow⟩ := Tree.exists_of_resolve_append hplace
  have hne := (Ranking.name_archive hfile).1.stemOf_ne.1
  obtain ⟨hplain, hdot, hdots⟩ := Ranking.place_of_follow hne hfollow
  -- A file's name is neither one dot nor two, so that such a stem has a suffix behind it.
  have hstem := @Ranking.stem_archive_eq_iff _ _ _ hfile
  refine ⟨r, dir, report, hr, hwrites, hcontent, hdir, fun h h' => ?_, fun h => ?_, fun h => ?_⟩
  · have hp := hplain (fun he => ?_) (fun he => ?_)
    · exact ⟨hp, hne, hp ▸ Place.below_child_child dir _ _⟩
    · exact not_exists.2 h ((hstem (.inl rfl)).1 he)
    · exact not_exists.2 h' ((hstem (.inr rfl)).1 he)
  · exact hdot ((hstem (.inl rfl)).2 h)
  · exact hdots ((hstem (.inr rfl)).2 h)

/-- An archive without members: an end record alone. -/
def emptyArchive : ByteArray := ⟨(Zip.EndRecord.signature ++ List.replicate 18 0).toArray⟩

/-- Settings with both directories in the working directory. -/
def localSettings : Settings := { archivesRoot := "archives", resultsPath := "results" }

/-- A tree with this archive under a name, and nothing else. -/
def treeWith (name : String) : Tree :=
  { nodes := [(⟨.above 0, [name, "archives"]⟩, .file emptyArchive),
      (⟨.above 0, ["archives"]⟩, .directory)] }

/-- The form that asks for the report on an archive to be written. -/
def writingForm (name : String) : Bytes :=
  ("\x7b\"archive_path\":\"" ++ name ++ "\",\"write_outputs\":true\x7d").toUTF8.data.toList

/-- The tree after that has been asked for. -/
def treeAfter (name : String) : Tree :=
  (handle .bare localSettings (treeWith name) "POST" "/ranker/run" (writingForm name)).tree

/-- The report on `a.jar` is in the directory `a` below that of results. -/
theorem report_placed_plain :
    ∃ place dir, (treeAfter "a.jar").file? place ≠ (treeWith "a.jar").file? place ∧
      (∀ suffix, ¬ Path.Splits "a.jar" "." suffix) ∧ (∀ suffix, ¬ Path.Splits "a.jar" ".." suffix) ∧
      (treeAfter "a.jar").resolve localSettings.results = .ok dir ∧
      place = (dir.child "a").child Report.fileName ∧ place.Below dir := by
  have hchanged : (treeAfter "a.jar").file? ⟨.above 0, ["ranking_report.json", "a", "results"]⟩ ≠
      (treeWith "a.jar").file? ⟨.above 0, ["ranking_report.json", "a", "results"]⟩ := by
    decide +kernel
  have hform : (Request.ofBytes (writingForm "a.jar")).toOption = some ⟨"a.jar", none, true⟩ := by
    decide +kernel
  have hname : (Ranking.archive localSettings ⟨"a.jar", none, true⟩).name = "a.jar" := by
    decide +kernel
  have hstem : Path.stemOf "a.jar" = "a" := by decide +kernel
  have hsplits : ∀ stem, stem ≠ "a" → ∀ suffix, ¬ Path.Splits "a.jar" stem suffix :=
    fun stem hne suffix h => hne (h.stemOf_eq.symm.trans hstem)
  obtain ⟨r, dir, -, hr, -, -, hdir, hplain, -⟩ := report_placed _ _ _ _ _ _ hchanged
  rw [hr] at hform
  cases hform
  rw [Path.stem, hname, hstem] at hplain
  have hdot := hsplits "." (by decide)
  have hdots := hsplits ".." (by decide)
  obtain ⟨hplace, -, hbelow⟩ := hplain hdot hdots
  exact ⟨_, dir, hchanged, hdot, hdots, hdir, hplace, hbelow⟩

/-- The report on `...jar` is not below the directory of results. -/
theorem report_not_below :
    ∃ place, (treeAfter "...jar").file? place ≠ (treeWith "...jar").file? place ∧
      ∀ dir, (treeAfter "...jar").resolve localSettings.results = .ok dir → ¬ place.Below dir := by
  refine ⟨⟨.above 0, ["ranking_report.json"]⟩, by decide +kernel, fun dir hdir hbelow => ?_⟩
  have hresults : (treeAfter "...jar").resolve localSettings.results =
      .ok ⟨.above 0, ["results"]⟩ := by decide +kernel
  rw [hresults] at hdir
  cases hdir
  obtain ⟨names, hne, he⟩ := hbelow
  have hlength := congrArg (fun p : Place => p.names.length) he
  simp only [List.length_append, List.length_singleton] at hlength
  exact hne (List.length_eq_zero_iff.1 (by omega))

end Service
end JarRank
