import JarRank.Proofs.Files.Growth
import JarRank.Proofs.Ranking.Magnitude
import JarRank.Ranking.Run

/-!
# What a run leaves behind

What keeps a run from having a report comes before anything is written: there is nothing at the
path, or a directory, or the system refuses to look there or to read what is there; the analysis
stops, or fewer than no methods are asked for. The tree is then as it was. What is left is the
writing. If the directory can be made and the file in it be written, a run that has a report and
a directory for it changes one file, which then holds that very report, and any other run changes
none. The archive has been read before, so that the report may take its place. Where the report
cannot be written, directories may have been made for it, but no file has changed.
-/
namespace JarRank

open Files (Path Place Tree)

namespace Files

theorem Tree.find?_eq_some_iff {t : Tree} {p : Path} {node : Node} :
    t.find? p = some node ↔ t.look p = .ok node := by
  unfold find?
  cases t.look p <;> simp [Except.toOption]

variable {t : Tree} {p : Path} {data : ByteArray}

namespace Tree

theorem ask_of_find {node : Node} (h : t.find? p = some node) (property : Node → Bool) :
    t.ask p property = .ok (property node) := by
  rw [ask, find?_eq_some_iff.1 h]

theorem exists_of_find {node : Node} (h : t.find? p = some node) : t.exists p = .ok true :=
  ask_of_find h _

theorem isFile_of_find {node : Node} (h : t.find? p = some node) :
    t.isFile p = .ok !node.isDirectory := ask_of_find h _

/-- Something is found at a path, or all questions about it have the answer that there is nothing, or
all are refused. -/
theorem find_or_ask (t : Tree) (p : Path) : (∃ node, t.find? p = some node) ∨
    (∀ property, t.ask p property = .ok false) ∨
      ∃ fault, ∀ property, t.ask p property = .error fault := by
  cases hl : t.look p with
  | ok node => exact .inl ⟨node, find?_eq_some_iff.2 hl⟩
  | error cause =>
      right
      simp only [ask, hl]
      by_cases hc : cause.isAbsence
      · exact .inl fun _ => if_pos hc
      · exact .inr ⟨⟨cause, p⟩, fun _ => if_neg hc⟩

/-- What a path leads to is found there, unless the system refuses to tell. -/
theorem node?_of_find {node : Node} (h : t.find? p = some node) :
    ∃ place, t.resolve p = .ok place ∧ t.node? place = some node := by
  have hlook := find?_eq_some_iff.1 h
  unfold look at hlook
  obtain ⟨place, hplace, hlook⟩ := Except.bind_eq_ok_iff.1 hlook
  obtain ⟨⟨⟩, -, hlook⟩ := Except.bind_eq_ok_iff.1 hlook
  refine ⟨place, hplace, ?_⟩
  split at hlook
  · next node' hn =>
    rw [hn, Except.ok.inj hlook]
  · cases hlook

/-- Where nothing is refused, what a path leads to is found there. -/
theorem find?_of_resolve {place : Place} {node : Node} (hr : t.resolve p = .ok place)
    (hn : t.node? place = some node) (hnone : t.refusals = []) : t.find? p = some node := by
  rw [find?_eq_some_iff, look, hr]
  simp [bind, Except.bind, permit, hnone, hn, pure, Except.pure]

theorem read_of_resolve {place : Place} (hr : t.resolve p = .ok place)
    (hn : t.node? place = some (.file data)) (hnone : t.refusals = []) : t.read p = .ok data := by
  rw [read, hr]
  simp [bind, Except.bind, permit, hnone, hn]

/-- What is found at a path can be read if it is a file, unless the system refuses. -/
theorem read_of_find {node : Node} (h : t.find? p = some node) :
    (∃ refusal, t.read p = .error ⟨.refused refusal, p⟩) ∨
      (∃ content, node = .file content ∧ t.read p = .ok content) ∨
        node = .directory ∧ t.read p = .error ⟨.isDirectory, p⟩ := by
  obtain ⟨place, hplace, hn⟩ := node?_of_find h
  unfold read permit
  rw [hplace]
  simp only [Except.mapError_ok, bind, Except.bind, hn]
  cases t.refusals.lookup (place, .read) with
  | some refusal => exact .inl ⟨refusal, rfl⟩
  | none =>
      cases node with
      | file content => exact .inr (.inl ⟨content, rfl, rfl⟩)
      | directory => exact .inr (.inr ⟨rfl, rfl⟩)

theorem find?_of_read {node : Node} (h : t.find? p = some node) (hr : t.read p = .ok data) :
    t.find? p = some (.file data) := by
  rcases read_of_find h with ⟨refusal, hf⟩ | ⟨content, rfl, hf⟩ | ⟨-, hf⟩
  · rw [hf] at hr
    cases hr
  · rw [hf] at hr
    cases hr
    exact h
  · rw [hf] at hr
    cases hr

end Tree
end Files

namespace Run

variable {host : Host} {tree after : Tree} {o : Order} {dir : Path} {data : ByteArray} {r : Report}

/-- The rows that a limit leaves of a ranking. -/
def kept : Option Int → List Row → List Row
  | none, rows => rows
  | some n, rows => rows.take n.toNat

/-- A report that names its archive by path and digest, with the methods that are asked for. -/
def completed (o : Order) (data : ByteArray) (r : Report) : Report :=
  { r with
    methods := kept o.limit r.methods
    archivePath := some (Path.ofString o.path).toString
    archiveDigest := some (Sha256.hexDigest data) }

/-- No limit is below zero. -/
def Limitable (o : Order) : Prop := ∀ n, o.limit = some n → 0 ≤ n

theorem finished_of_limitable (h : Limitable o) : finished o data r = .ok (completed o data r) := by
  unfold finished completed
  cases hl : o.limit with
  | none => rfl
  | some n =>
      have hn : ¬ n < 0 := Int.not_lt.2 (h n hl)
      simp only [Row.top, if_neg hn]
      rfl

theorem finished_of_negative {n : Int} (hl : o.limit = some n) (hn : n < 0) :
    finished o data r = .error ⟨n⟩ := by
  simp only [finished, hl, Row.top, if_pos hn]
  rfl

theorem fits_completed (h : r.Fits Numeral.maxDigits) : (completed o data r).Fits Numeral.maxDigits where
  sizes := fun m hm => h.sizes m (by
    unfold completed kept at hm
    split at hm
    · exact hm
    · exact List.mem_of_mem_take hm)
  scanned := h.scanned
  found := h.found
  versions := h.versions
  counts := h.counts

/-- What keeps a run from having a report. -/
inductive Prevents (host : Host) (tree : Tree) (o : Order) : RunFault → Prop
  | missing : tree.exists (.ofString o.path) = .ok false → Prevents host tree o (.notFound o.path)
  | unseen {fault : Files.FileFault} : tree.exists (.ofString o.path) = .error fault →
      Prevents host tree o (.file fault)
  | directory : tree.find? (.ofString o.path) = some .directory →
      tree.read (.ofString o.path) = .error ⟨.isDirectory, .ofString o.path⟩ →
      Prevents host tree o (.file ⟨.isDirectory, .ofString o.path⟩)
  | unread {refusal : Files.Refusal} : tree.exists (.ofString o.path) = .ok true →
      tree.read (.ofString o.path) = .error ⟨.refused refusal, .ofString o.path⟩ →
      Prevents host tree o (.file ⟨.refused refusal, .ofString o.path⟩)
  | analysis {data : ByteArray} {fault : AnalysisFault} :
      tree.find? (.ofString o.path) = some (.file data) → tree.read (.ofString o.path) = .ok data →
      (report host o data).1 = .error fault → Prevents host tree o (.analysis fault)
  | limit {data : ByteArray} {r : Report} {n : Int} :
      tree.find? (.ofString o.path) = some (.file data) → tree.read (.ofString o.path) = .ok data →
      (report host o data).1 = .ok r → o.limit = some n → n < 0 → Prevents host tree o (.limit ⟨n⟩)

/-- A run reports on a file that it can read, with as many methods as it may keep. -/
structure Reports (host : Host) (tree : Tree) (o : Order) (data : ByteArray) (r : Report) : Prop where
  find : tree.find? (.ofString o.path) = some (.file data)
  read : tree.read (.ofString o.path) = .ok data
  report : (Run.report host o data).1 = .ok r
  limitable : Limitable o

/-- What is reported can be spelled. -/
theorem Reports.fits (h : Reports host tree o data r) :
    (completed o data r).Fits Numeral.maxDigits :=
  fits_completed (fits_report h.report)

theorem prevents_or_reports (host : Host) (tree : Tree) (o : Order) :
    (∃ fault, Prevents host tree o fault) ∨ ∃ data r, Reports host tree o data r := by
  rcases tree.find_or_ask (.ofString o.path) with ⟨node, hf⟩ | hno | ⟨fault, hfault⟩
  · have hexists := Tree.exists_of_find hf
    rcases Tree.read_of_find hf with ⟨refusal, hr⟩ | ⟨data, rfl, hr⟩ | ⟨rfl, hr⟩
    · exact .inl ⟨_, .unread hexists hr⟩
    · cases hreport : (report host o data).1 with
      | error fault => exact .inl ⟨_, .analysis hf hr hreport⟩
      | ok r =>
          by_cases hl : Limitable o
          · exact .inr ⟨data, r, hf, hr, hreport, hl⟩
          · simp only [Limitable, not_forall, Int.not_le] at hl
            obtain ⟨n, hn, hneg⟩ := hl
            exact .inl ⟨_, .limit hf hr hreport hn hneg⟩
    · exact .inl ⟨_, .directory hf hr⟩
  · exact .inl ⟨_, .missing (hno _)⟩
  · exact .inl ⟨_, .unseen (hfault _)⟩

/-- A run that is kept from having a report ends at once. -/
theorem ofOrder_of_prevents {fault : RunFault} (h : Prevents host tree o fault) :
    (ofOrder host tree o).result = .error fault ∧ (ofOrder host tree o).tree = tree := by
  unfold ofOrder
  dsimp only
  cases h with
  | missing he =>
      rw [he]
      exact ⟨rfl, rfl⟩
  | unseen he =>
      rw [he]
      exact ⟨rfl, rfl⟩
  | directory hf hr =>
      rw [Tree.exists_of_find hf, hr]
      exact ⟨rfl, rfl⟩
  | unread he hr =>
      rw [he, hr]
      exact ⟨rfl, rfl⟩
  | @analysis data fault hf hread hr =>
      rw [Tree.exists_of_find hf, hread]
      dsimp only
      generalize report host o data = found at hr
      obtain ⟨_, journal⟩ := found
      dsimp only at hr
      subst hr
      exact ⟨rfl, rfl⟩
  | @limit data r n hf hread hr hl hn =>
      rw [Tree.exists_of_find hf, hread]
      dsimp only
      have hfinished := @finished_of_negative o data r n hl hn
      generalize report host o data = found at hr
      obtain ⟨_, journal⟩ := found
      dsimp only at hr
      subst hr
      simp only [hfinished, and_self]

/-- What comes of a report when it is to be written. -/
inductive Ends (tree : Tree) (outputDir : Option Path) (r : Report) :
    Except RunFault Report → Tree → Prop
  | unwritten {fault : RunFault} {left : Tree} : write tree outputDir r = .error (fault, left) →
      Ends tree outputDir r (.error fault) left
  | written {after : Tree} : write tree outputDir r = .ok after → Ends tree outputDir r (.ok r) after

/-- With a report, nothing is left of a run but to write it. -/
theorem ofOrder_eq_of_reports (h : Reports host tree o data r) :
    ofOrder host tree o =
      match write tree o.outputDir (completed o data r) with
      | .error (fault, left) => ⟨.error fault, left, (report host o data).2⟩
      | .ok after => ⟨.ok (completed o data r), after, (report host o data).2⟩ := by
  have hreport := h.report
  unfold ofOrder
  dsimp only
  rw [Tree.exists_of_find h.find, h.read]
  dsimp only
  generalize Run.report host o data = found at hreport
  obtain ⟨_, journal⟩ := found
  dsimp only at hreport
  subst hreport
  cases hwrite : write tree o.outputDir (completed o data r) with
  | error halted =>
      obtain ⟨fault, left⟩ := halted
      simp only [finished_of_limitable h.limitable, hwrite]
  | ok after => simp only [finished_of_limitable h.limitable, hwrite]

theorem ends_of_reports (h : Reports host tree o data r) :
    Ends tree o.outputDir (completed o data r) (ofOrder host tree o).result
      (ofOrder host tree o).tree := by
  rw [ofOrder_eq_of_reports h]
  cases hw : write tree o.outputDir (completed o data r) with
  | error fault => exact .unwritten hw
  | ok after => exact .written hw

theorem journal_of_reports (h : Reports host tree o data r) :
    (ofOrder host tree o).journal = (report host o data).2 := by
  rw [ofOrder_eq_of_reports h]
  cases write tree o.outputDir (completed o data r) <;> rfl

/-- A report is written by making the directory and putting its document in place. -/
theorem write_some_eq_ok_iff : write tree (some dir) r = .ok after ↔
    r.Fits Numeral.maxDigits ∧ ∃ made, tree.makeDirectories dir = .ok made ∧
      made.write (reportPath dir) r.document.toUTF8 = .ok after := by
  unfold write
  dsimp only
  cases tree.makeDirectories dir with
  | error halted => exact ⟨nofun, fun h => nomatch h.2.choose_spec.1⟩
  | ok made =>
      dsimp only
      cases ht : r.text? with
      | none =>
          refine ⟨nofun, fun h => ?_⟩
          rw [Report.text?_eq_some_iff.2 ⟨h.1, rfl⟩] at ht
          cases ht
      | some text =>
          obtain ⟨hf, rfl⟩ := Report.text?_eq_some_iff.1 ht
          simp only [Except.mapError_eq_ok_iff, Except.ok.injEq, hf, true_and, exists_eq_left']

/-- Where a report cannot be written, the system says why, and at most directories have been made. -/
theorem of_write_eq_error {outputDir : Option Path} {fault : RunFault} {left : Tree}
    (hr : r.Fits Numeral.maxDigits) (h : write tree outputDir r = .error (fault, left)) :
    (∃ f, fault = .file f) ∧ tree.AddsDirectories left := by
  unfold write at h
  split at h
  · cases h
  · split at h
    · next halted hmade =>
      cases h
      exact ⟨⟨_, rfl⟩, Tree.addsDirectories_of_halted hmade⟩
    · next made hmade =>
      rw [Report.text?_eq_some_iff.2 ⟨hr, rfl⟩] at h
      obtain ⟨f, -, h⟩ := Except.mapError_eq_error_iff.1 h
      cases h
      exact ⟨⟨f, rfl⟩, Tree.addsDirectories_makeDirectories hmade⟩

/-- A run that fails leaves every file as it was. -/
theorem file?_of_result_error {fault : RunFault} (h : (ofOrder host tree o).result = .error fault)
    (q : Place) : (ofOrder host tree o).tree.file? q = tree.file? q := by
  rcases prevents_or_reports host tree o with ⟨_, hp⟩ | ⟨data, r, hr⟩
  · rw [(ofOrder_of_prevents hp).2]
  · have hends := ends_of_reports hr
    rw [h] at hends
    generalize (ofOrder host tree o).tree = after at hends
    cases hends with
    | unwritten hw => exact (of_write_eq_error hr.fits hw).2.file?_eq q

/-- Writing a report leaves every file as it was but the one that the report's path leads to. -/
theorem frame_of_write (h : write tree (some dir) r = .ok after) :
    ∃ place, after.resolve (reportPath dir) = .ok place ∧
      after.file? place = some r.document.toUTF8 ∧
      ∀ q, q ≠ place → after.file? q = tree.file? q := by
  obtain ⟨-, made, hmade, hw⟩ := write_some_eq_ok_iff.1 h
  obtain ⟨place, hr, hcontent, hrest⟩ := Tree.exists_of_write hw
  refine ⟨place, hr, hcontent, fun q hq => ?_⟩
  exact (hrest q hq).trans ((Tree.addsDirectories_makeDirectories hmade).file?_eq q)

/-- Writing a report changes the file that its path leads to, and no other. -/
theorem exists_of_write (h : write tree (some dir) r = .ok after) :
    ∃ place, after.resolve (reportPath dir) = .ok place ∧
      after.file? place = some r.document.toUTF8 ∧
      ∀ q, after.file? q ≠ tree.file? q → q = place := by
  obtain ⟨place, hr, hcontent, hrest⟩ := frame_of_write h
  refine ⟨place, hr, hcontent, fun q hq => ?_⟩
  by_contra hne
  exact hq (hrest q hne)

/-- A run without a directory to write to leaves the tree as it is. -/
theorem tree_of_unwritten (host : Host) (tree : Tree) (h : o.outputDir = none) :
    (ofOrder host tree o).tree = tree := by
  rcases prevents_or_reports host tree o with ⟨fault, hp⟩ | ⟨data, r, hr⟩
  · exact (ofOrder_of_prevents hp).2
  · rw [ofOrder_eq_of_reports hr, h]
    rfl

/-- A run changes no file, or has written a report to the directory of its order. -/
theorem tree_ofOrder (host : Host) (tree : Tree) (o : Order) :
    (∀ q, (ofOrder host tree o).tree.file? q = tree.file? q) ∨
      ∃ dir r, o.outputDir = some dir ∧
        write tree (some dir) r = .ok (ofOrder host tree o).tree := by
  cases ho : o.outputDir with
  | none => exact .inl fun q => by rw [tree_of_unwritten host tree ho]
  | some dir =>
      cases h : (ofOrder host tree o).result with
      | error fault => exact .inl (file?_of_result_error h)
      | ok r =>
          rcases prevents_or_reports host tree o with ⟨fault, hp⟩ | ⟨data, found, hr⟩
          · rw [(ofOrder_of_prevents hp).1] at h
            cases h
          · have hends := ends_of_reports hr
            rw [h, ho] at hends
            generalize (ofOrder host tree o).tree = after at hends ⊢
            cases hends with
            | written hw => exact .inr ⟨dir, _, rfl, hw⟩

/-- A report can be written to a directory: it is there or can be made, and the file may be put in. -/
def CanWrite (tree : Tree) (dir : Path) : Prop :=
  ∃ made place, tree.makeDirectories dir = .ok made ∧ made.resolve (reportPath dir) = .ok place ∧
    made.Accepts place

/-- Wherever the report is to be written, it can be. -/
def Writable (tree : Tree) (outputDir : Option Path) : Prop :=
  ∀ dir, outputDir = some dir → CanWrite tree dir

/-- Whether a report can be written is no matter of what it says, as long as it can be spelled. -/
theorem exists_write_iff {outputDir : Option Path} (hr : r.Fits Numeral.maxDigits) :
    (∃ after, write tree outputDir r = .ok after) ↔ Writable tree outputDir := by
  cases outputDir with
  | none => exact ⟨fun _ => nofun, fun _ => ⟨tree, rfl⟩⟩
  | some dir =>
      constructor
      · intro h dir' hdir
        cases hdir
        obtain ⟨after, h⟩ := h
        obtain ⟨-, made, hmade, hw⟩ := write_some_eq_ok_iff.1 h
        obtain ⟨place, hplace, haccepts, -⟩ := Tree.write_eq_ok_iff.1 hw
        exact ⟨made, place, hmade, hplace, haccepts⟩
      · intro h
        obtain ⟨made, place, hmade, hplace, haccepts⟩ := h dir rfl
        exact ⟨_, write_some_eq_ok_iff.2
          ⟨hr, made, hmade, Tree.write_eq_ok_iff.2 ⟨place, hplace, haccepts, rfl⟩⟩⟩

/-- A run that has a report, and can write it wherever it is to be written, ends with it. -/
theorem ofOrder_of_reports (h : Reports host tree o data r) (hw : Writable tree o.outputDir) :
    (ofOrder host tree o).result = .ok (completed o data r) ∧
      write tree o.outputDir (completed o data r) = .ok (ofOrder host tree o).tree := by
  have he := ends_of_reports h
  generalize (ofOrder host tree o).result = result at he
  generalize (ofOrder host tree o).tree = after at he
  cases he with
  | unwritten hfault =>
      obtain ⟨after, hafter⟩ := (exists_write_iff h.fits).2 hw
      rw [hfault] at hafter
      cases hafter
  | written hwritten => exact ⟨rfl, hwritten⟩

/-- A run ends with a report only if nothing has prevented it. -/
theorem reports_of_result (h : (ofOrder host tree o).result = .ok r) :
    ∃ data found, Reports host tree o data found ∧ r = completed o data found ∧
      write tree o.outputDir r = .ok (ofOrder host tree o).tree := by
  rcases prevents_or_reports host tree o with ⟨fault, hp⟩ | ⟨data, found, hr⟩
  · rw [(ofOrder_of_prevents hp).1] at h
    cases h
  · have he := ends_of_reports hr
    rw [h] at he
    generalize (ofOrder host tree o).tree = after at he ⊢
    cases he with
    | written hw => exact ⟨data, found, hr, rfl, hw⟩

theorem fits_of_result (h : (ofOrder host tree o).result = .ok r) : r.Fits Numeral.maxDigits := by
  obtain ⟨data, found, hreports, rfl, -⟩ := reports_of_result h
  exact hreports.fits

/-- Suppose that the report can be written wherever it is to be written. A run then fails exactly if
there is no file at its path that can be read, the analysis stops, or the limit is below zero, and
leaves the tree as it was. Otherwise its report names the archive by the bytes that were read, and
keeps as many methods as the limit says. With no directory to write to, the tree is as it was; with
one, the file in it holds this report, and every other file is as it was. -/
theorem effects_all_or_nothing (host : Host) (tree : Tree) (o : Order) (hw : Writable tree o.outputDir) :
    (∀ fault, (ofOrder host tree o).result = .error fault ↔ Prevents host tree o fault) ∧
      (∀ fault, (ofOrder host tree o).result = .error fault → (ofOrder host tree o).tree = tree) ∧
      (∀ n, o.limit = some n → n < 0 → ∃ fault, (ofOrder host tree o).result = .error fault) ∧
      ∀ r, (ofOrder host tree o).result = .ok r →
        (∃ data found, Reports host tree o data found ∧ r = completed o data found) ∧
          (o.outputDir = none → (ofOrder host tree o).tree = tree) ∧
          ∀ dir, o.outputDir = some dir → ∃ place,
            (ofOrder host tree o).tree.resolve (reportPath dir) = .ok place ∧
              (ofOrder host tree o).tree.file? place = some r.document.toUTF8 ∧
              ∀ q, q ≠ place → (ofOrder host tree o).tree.file? q = tree.file? q := by
  have hfault : ∀ fault, (ofOrder host tree o).result = .error fault → Prevents host tree o fault := by
    intro fault h
    rcases prevents_or_reports host tree o with ⟨fault', hp⟩ | ⟨data, found, hr⟩
    · rw [(ofOrder_of_prevents hp).1] at h
      cases h
      exact hp
    · rw [(ofOrder_of_reports hr hw).1] at h
      cases h
  refine ⟨fun fault => ⟨hfault fault, fun h => (ofOrder_of_prevents h).1⟩,
    fun fault h => (ofOrder_of_prevents (hfault fault h)).2, fun n hn hneg => ?_, fun r h => ?_⟩
  · cases hr : (ofOrder host tree o).result with
    | error fault => exact ⟨fault, rfl⟩
    | ok r =>
        obtain ⟨data, found, hreports, -⟩ := reports_of_result hr
        have hnonneg := hreports.limitable n hn
        omega
  · obtain ⟨data, found, hreports, hcompleted, hwritten⟩ := reports_of_result h
    refine ⟨⟨data, found, hreports, hcompleted⟩, fun hnone => ?_, fun dir hdir => ?_⟩
    · rw [hnone] at hwritten
      exact (Except.ok.inj hwritten).symm
    · rw [hdir] at hwritten
      obtain ⟨place, hplace, hcontent, honly⟩ := exists_of_write hwritten
      refine ⟨place, hplace, hcontent, fun q hq => ?_⟩
      by_contra hne
      exact hq (honly q hne)

/-- A tree in which a file that is no archive has the name of a report. -/
def occupiedTree : Tree :=
  { nodes := [(⟨.above 0, ["ranking_report.json"]⟩, .file ⟨#[0x50, 0x4B]⟩)] }

/-- An order for that file, whose report takes its place. -/
def occupiedOrder : Order :=
  { path := "ranking_report.json", outputDir := some ⟨.relative, []⟩, limit := some 3 }

/-- A file that is no archive is replaced by the report that rejects it. -/
theorem effects_all_or_nothing_occupied :
    Writable occupiedTree occupiedOrder.outputDir ∧
      ∃ r, (ofOrder .bare occupiedTree occupiedOrder).result = .ok r ∧
        r.verdict = "REJECT" ∧ r.archiveDigest = some (Sha256.hexDigest ⟨#[0x50, 0x4B]⟩) ∧
        (ofOrder .bare occupiedTree occupiedOrder).tree.file? ⟨.above 0, ["ranking_report.json"]⟩ =
          some r.document.toUTF8 := by
  have hplace : occupiedTree.resolve (reportPath ⟨.relative, []⟩) =
      .ok ⟨.above 0, ["ranking_report.json"]⟩ := by decide +kernel
  have hw : Writable occupiedTree occupiedOrder.outputDir := by
    intro dir hdir
    cases hdir
    exact ⟨occupiedTree, _, rfl, hplace, .replaced rfl rfl⟩
  have hpath : reportPath ⟨.relative, []⟩ = .ofString occupiedOrder.path := by decide +kernel
  have hfind : occupiedTree.find? (.ofString occupiedOrder.path) = some (.file ⟨#[0x50, 0x4B]⟩) :=
    Tree.find?_of_resolve (hpath ▸ hplace) rfl rfl
  have hread : occupiedTree.read (.ofString occupiedOrder.path) = .ok ⟨#[0x50, 0x4B]⟩ :=
    Tree.read_of_resolve (hpath ▸ hplace) rfl rfl
  have hreport : (report .bare occupiedOrder ⟨#[0x50, 0x4B]⟩).1 =
      .ok (.rejected Clock.frozen.now Profile.standard.id Zip.ContainerFault.noEndRecord.message) := by
    decide +kernel
  obtain ⟨-, -, -, hok⟩ := effects_all_or_nothing .bare occupiedTree occupiedOrder hw
  have hlimitable : Limitable occupiedOrder := by simp [Limitable, occupiedOrder]
  obtain ⟨hresult, -⟩ := ofOrder_of_reports ⟨hfind, hread, hreport, hlimitable⟩ hw
  obtain ⟨-, -, hfile⟩ := hok _ hresult
  obtain ⟨place, hresolve, hcontent, -⟩ := hfile _ rfl
  have hafter : (ofOrder .bare occupiedTree occupiedOrder).tree.resolve (reportPath ⟨.relative, []⟩) =
      .ok ⟨.above 0, ["ranking_report.json"]⟩ := by decide +kernel
  rw [hafter] at hresolve
  cases hresolve
  exact ⟨hw, _, hresult, rfl, rfl, hcontent⟩

end Run
end JarRank
