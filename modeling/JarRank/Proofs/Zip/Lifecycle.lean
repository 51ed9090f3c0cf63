import JarRank.Proofs.Bytes.Checksum
import JarRank.Proofs.Zip.MemberReading
import Mathlib.Data.List.Induction

/-!
# The life of an archive

An archive may be entered, left, listed and read from in any order and any number of times, and
members that have been listed are kept. Whatever has been done before, the archive is in one of
three stages, and the stage and the bytes tell what the next step gives. Entering succeeds if the
directory can be read. From then on the members of that directory are listed, also while the archive
is closed. While it is open, a member gives what its bytes in the archive are, whenever it was listed:
it is not bound to the opening it was listed in, nor to what was read before.
-/
namespace JarRank.Zip

/-- The bytes have a directory that can be read. -/
def Opens (data : ByteArray) : Prop := ∃ ms, Directory.read data = .ok ms

/-- What listing the members of a directory gives. -/
def listing (ms : List Member) : Except ListFault (List Member) :=
  if ms.any fun m => m.path.isEmpty then .error .emptyPath else .ok ms

/-- What may be done with an archive. The member to be read is given by its place among all that
have been listed so far. -/
inductive Step where
  | enter
  | leave
  | list
  | read (i : Nat)
  deriving DecidableEq, Repr

/-- What a step gives. -/
inductive Outcome where
  | entered (result : Except OpenFault Unit)
  /-- Left, and whether that holds a fault back. -/
  | left (holdsBack : Bool)
  | listed (result : Except ListFault (List Member))
  | gave (result : Except ReadFault ByteArray)
  /-- No such member has been listed. -/
  | unlisted

/-- An archive with the members that have been listed so far. -/
structure Use where
  archive : Archive
  held : List Member

namespace Use

def ofBytes (data : ByteArray) : Use := ⟨.ofBytes data, []⟩

def step (u : Unpackers) (use : Use) : Step → Outcome × Use
  | .enter => (.entered use.archive.enter.1, ⟨use.archive.enter.2, use.held⟩)
  | .leave => (.left false, ⟨use.archive.leave, use.held⟩)
  | .list => (.listed use.archive.list, ⟨use.archive, use.held ++ (use.archive.list.toOption.getD [])⟩)
  | .read i => ((use.held[i]?).elim .unlisted fun m => .gave (use.archive.read u m), use)

/-- A fresh archive after steps. -/
def after (u : Unpackers) (data : ByteArray) (history : List Step) : Use :=
  history.foldl (fun use s => (use.step u s).2) (ofBytes data)

theorem after_concat (u : Unpackers) (data : ByteArray) (history : List Step) (s : Step) :
    after u data (history ++ [s]) = ((after u data history).step u s).2 := by
  simp only [after, List.foldl_append, List.foldl_cons, List.foldl_nil]

end Use

/-- Some step has entered the archive, and no later one has left it. -/
def Entered (history : List Step) : Prop :=
  ∃ before since, history = before ++ .enter :: since ∧ .leave ∉ since

theorem entered_concat_iff {history : List Step} {s : Step} :
    Entered (history ++ [s]) ↔ s = .enter ∨ s ≠ .leave ∧ Entered history := by
  constructor
  · rintro ⟨before, since, heq, hsince⟩
    rcases List.eq_nil_or_concat since with rfl | ⟨since, t, rfl⟩
    · obtain ⟨-, hs⟩ := List.append_inj' heq rfl
      exact .inl (List.singleton_inj.1 hs)
    · rw [List.concat_eq_append] at heq hsince
      rw [← List.cons_append, ← List.append_assoc] at heq
      obtain ⟨hfront, hs⟩ := List.append_inj' heq rfl
      refine .inr ⟨?_, before, since, hfront, fun hm => hsince (List.mem_append_left _ hm)⟩
      rw [List.singleton_inj.1 hs]
      exact fun ht => hsince (List.mem_append_right _ (ht ▸ List.mem_singleton_self _))
  · rintro (rfl | ⟨hs, before, since, rfl, hsince⟩)
    · exact ⟨history, [], rfl, List.not_mem_nil⟩
    · refine ⟨before, since ++ [s], by rw [List.append_assoc, List.cons_append], fun hm => ?_⟩
      rcases List.mem_append.1 hm with hm | hm
      · exact hsince hm
      · exact hs (List.mem_singleton.1 hm).symm

/-- The stage that an archive has come to by some steps. -/
inductive Stage (data : ByteArray) (history : List Step) : Archive → Prop
  | unopened : ¬(Opens data ∧ .enter ∈ history) → Stage data history (.ofBytes data)
  | opened (ms : List Member) : Directory.read data = .ok ms → Entered history →
      Stage data history ⟨data, .opened ms⟩
  | closed (ms : List Member) : Directory.read data = .ok ms → .enter ∈ history →
      ¬Entered history → Stage data history ⟨data, .closed ms⟩

namespace Stage

variable {data : ByteArray} {history : List Step} {a : Archive}

theorem data_eq (h : Stage data history a) : a.data = data := by
  cases h <;> rfl

/-- Entering opens from any stage if the directory can be read, and otherwise changes nothing. -/
theorem enter (h : Stage data history a) : Stage data (history ++ [.enter]) a.enter.2 := by
  unfold Archive.enter
  rw [h.data_eq]
  cases hd : Directory.read data with
  | ok ms =>
      have hentered : Entered (history ++ [.enter]) := entered_concat_iff.2 (.inl rfl)
      cases h <;> exact .opened ms hd hentered
  | error fault =>
      cases h with
      | unopened => exact .unopened fun ⟨⟨ms, hms⟩, _⟩ => nomatch hd.symm.trans hms
      | opened ms hms => cases hd.symm.trans hms
      | closed ms hms => cases hd.symm.trans hms

theorem leave (h : Stage data history a) : Stage data (history ++ [.leave]) a.leave := by
  have hleft : ¬Entered (history ++ [.leave]) := by
    simp [entered_concat_iff]
  cases h with
  | unopened hn => exact .unopened (by simpa using hn)
  | opened ms hms hentered =>
      obtain ⟨before, since, rfl, -⟩ := hentered
      exact .closed ms hms (by simp) hleft
  | closed ms hms hmem _ => exact .closed ms hms (List.mem_append_left _ hmem) hleft

/-- Listing and reading leave the stage as it is. -/
theorem still (h : Stage data history a) {s : Step} (henter : s ≠ .enter) (hleave : s ≠ .leave) :
    Stage data (history ++ [s]) a := by
  have hentered : Entered (history ++ [s]) ↔ Entered history := by
    simp [entered_concat_iff, henter, hleave]
  have hmem : .enter ∈ history ++ [s] ↔ .enter ∈ history := by
    simp [henter.symm]
  cases h with
  | unopened hn => exact .unopened (by rwa [hmem])
  | opened ms hms h => exact .opened ms hms (hentered.2 h)
  | closed ms hms h hn => exact .closed ms hms (hmem.2 h) (hentered.not.2 hn)

/-- From the first opening on the members of the directory are listed. -/
theorem list_eq (h : Stage data history a) {ms : List Member} (hms : Directory.read data = .ok ms)
    (henter : .enter ∈ history) : a.list = listing ms := by
  cases h with
  | unopened hn => exact (hn ⟨⟨ms, hms⟩, henter⟩).elim
  | opened ms' hms' | closed ms' hms' =>
      cases hms.symm.trans hms'
      rfl

theorem list_eq_unopened (h : Stage data history a) (hn : ¬(Opens data ∧ .enter ∈ history)) :
    a.list = .error .unopened := by
  cases h with
  | unopened => rfl
  | opened ms hms hentered =>
      obtain ⟨before, since, rfl, -⟩ := hentered
      exact (hn ⟨⟨ms, hms⟩, by simp⟩).elim
  | closed ms hms henter => exact (hn ⟨⟨ms, hms⟩, henter⟩).elim

theorem read_eq (h : Stage data history a) (hopens : Opens data) (hentered : Entered history)
    (u : Unpackers) (m : Member) : a.read u m = m.read u data := by
  cases h with
  | unopened hn =>
      obtain ⟨before, since, rfl, -⟩ := hentered
      exact (hn ⟨hopens, by simp⟩).elim
  | opened => rfl
  | closed ms _ _ hn => exact (hn hentered).elim

theorem read_eq_closed (h : Stage data history a) (hopens : Opens data) (henter : .enter ∈ history)
    (hn : ¬Entered history) (u : Unpackers) (m : Member) :
    a.read u m = .error (.obstacle .closed) := by
  cases h with
  | unopened hnever => exact (hnever ⟨hopens, henter⟩).elim
  | opened ms _ hentered => exact (hn hentered).elim
  | closed => rfl

end Stage

namespace Use

variable {u : Unpackers} {data : ByteArray} {use : Use} {history : List Step}

/-- Some steps have led to this use of an archive. -/
structure At (data : ByteArray) (history : List Step) (use : Use) : Prop where
  stage : Stage data history use.archive
  unheld : ¬(Opens data ∧ .enter ∈ history) → use.held = []
  /-- Members come from one directory, whenever they were listed. -/
  held : ∀ m ∈ use.held, ∃ ms, Directory.read data = .ok ms ∧ m ∈ ms

theorem at_ofBytes (data : ByteArray) : At data [] (ofBytes data) where
  stage := .unopened (by simp)
  unheld _ := rfl
  held _ hm := (List.not_mem_nil hm).elim

theorem At.list (h : At data history use) : At data (history ++ [.list]) (use.step u .list).2 := by
  have hheld : (use.step u .list).2.held = use.held ++ (use.archive.list.toOption.getD []) := rfl
  refine ⟨h.stage.still nofun nofun, fun hn => ?_, fun m hm => ?_⟩
  · have hbefore : ¬(Opens data ∧ .enter ∈ history) := by simpa using hn
    rw [hheld, h.unheld hbefore, h.stage.list_eq_unopened hbefore]
    rfl
  · rw [hheld, List.mem_append] at hm
    rcases hm with hm | hm
    · exact h.held m hm
    by_cases hopened : Opens data ∧ .enter ∈ history
    · obtain ⟨⟨ms, hms⟩, henter⟩ := hopened
      rw [h.stage.list_eq hms henter, listing] at hm
      refine ⟨ms, hms, ?_⟩
      split at hm
      · exact (List.not_mem_nil hm).elim
      · exact hm
    · rw [h.stage.list_eq_unopened hopened] at hm
      exact (List.not_mem_nil hm).elim

theorem At.step (h : At data history use) (s : Step) : At data (history ++ [s]) (use.step u s).2 := by
  cases s with
  | enter =>
      exact ⟨h.stage.enter, fun hn => h.unheld fun hopened => hn ⟨hopened.1, by simp⟩, h.held⟩
  | leave => exact ⟨h.stage.leave, fun hn => h.unheld (by simpa using hn), h.held⟩
  | list => exact h.list
  | read i =>
      exact ⟨h.stage.still nofun nofun, fun hn => h.unheld (by simpa using hn), h.held⟩

theorem at_after (u : Unpackers) (data : ByteArray) (history : List Step) :
    At data history (after u data history) := by
  induction history using List.reverseRecOn with
  | nil => exact at_ofBytes data
  | append_singleton history s ih =>
      rw [after_concat]
      exact ih.step s

/-- What the next step gives after steps is known from the bytes and from when the archive was entered
and left. -/
structure Predicted (u : Unpackers) (data : ByteArray) (history : List Step) : Prop where
  /-- Entering ends as reading the directory does, whatever stage the archive is in. -/
  entered : ((after u data history).step u .enter).1 =
    .entered ((Directory.read data).map fun _ => ())
  /-- An archive that cannot be entered stays as it is. -/
  unchanged : ∀ fault, Directory.read data = .error fault →
    ((after u data history).step u .enter).2 = after u data history
  left : ((after u data history).step u .leave).1 = .left false
  /-- Before the first opening nothing is listed, so that there is nothing to be read. -/
  unopened : ¬(Opens data ∧ .enter ∈ history) →
    ((after u data history).step u .list).1 = .listed (.error .unopened) ∧
      ∀ i, ((after u data history).step u (.read i)).1 = .unlisted
  /-- From then on the members of the directory are listed, whether the archive is open or closed. -/
  listed : ∀ ms, Directory.read data = .ok ms → .enter ∈ history →
    ((after u data history).step u .list).1 = .listed (listing ms)
  /-- A listing adds its members to those that may be read, and nothing else adds or removes any. -/
  added : ∀ ms, Directory.read data = .ok ms → .enter ∈ history →
    ((after u data history).step u .list).2.held =
      (after u data history).held ++ (listing ms).toOption.getD []
  kept : ∀ s, s ≠ .list → ((after u data history).step u s).2.held = (after u data history).held
  held : ∀ m ∈ (after u data history).held, ∃ ms, Directory.read data = .ok ms ∧ m ∈ ms
  /-- Since the last time that it was entered the archive has not been left: a member gives its bytes or
  its own fault, whenever it was listed. -/
  gave : Entered history → ∀ i m, (after u data history).held[i]? = some m →
    ((after u data history).step u (.read i)).1 = .gave (m.read u data)
  /-- However often it has been entered, leaving once closes. -/
  closed : .enter ∈ history → ¬Entered history → ∀ i m, (after u data history).held[i]? = some m →
    ((after u data history).step u (.read i)).1 = .gave (.error (.obstacle .closed))

/-- Whatever is done with an archive, each step gives what the bytes and the stage tell. -/
theorem predicted (u : Unpackers) (data : ByteArray) (history : List Step) :
    Predicted u data history := by
  have hat := at_after u data history
  have hopens : ∀ {i : Nat} {m : Member}, (after u data history).held[i]? = some m → Opens data := by
    intro i m hi
    obtain ⟨ms, hms, -⟩ := hat.held m (List.mem_of_getElem? hi)
    exact ⟨ms, hms⟩
  refine ⟨?_, fun fault hfault => ?_, rfl, fun hn => ⟨?_, fun i => ?_⟩, fun ms hms henter => ?_,
    fun ms hms henter => ?_, fun s hs => ?_, hat.held, fun hentered i m hi => ?_,
    fun henter hn i m hi => ?_⟩
  · rw [step, Archive.enter, hat.stage.data_eq]
    cases Directory.read data <;> rfl
  · rw [step, Archive.enter, hat.stage.data_eq, hfault]
  · rw [step, hat.stage.list_eq_unopened hn]
  · rw [step, hat.unheld hn]
    rfl
  · rw [step, hat.stage.list_eq hms henter]
  · rw [step, hat.stage.list_eq hms henter]
  · cases s with
    | list => exact (hs rfl).elim
    | enter | leave | read => rfl
  · rw [step, hi, Option.elim_some, hat.stage.read_eq (hopens hi) hentered]
  · rw [step, hi, Option.elim_some, hat.stage.read_eq_closed (hopens hi) henter hn]

/-- Two members of one name, each with one byte. -/
def twins : ByteArray :=
  ⟨#[0x50, 0x4B, 3, 4, 20, 0, 0, 0, 0, 0, 0, 0, 0, 0, 0x2E, 0x7A, 0x66, 0x4C, 1, 0, 0, 0, 1, 0, 0, 0,
    1, 0, 0, 0, 0x61, 7,
    0x50, 0x4B, 3, 4, 20, 0, 0, 0, 0, 0, 0, 0, 0, 0, 0xBF, 0x67, 0xD9, 0xDC, 1, 0, 0, 0, 1, 0, 0, 0,
    1, 0, 0, 0, 0x61, 8,
    0x50, 0x4B, 1, 2, 20, 0, 20, 0, 0, 0, 0, 0, 0, 0, 0, 0, 0x2E, 0x7A, 0x66, 0x4C, 1, 0, 0, 0,
    1, 0, 0, 0, 1, 0, 0, 0, 0, 0, 0, 0, 0, 0, 0, 0, 0, 0, 0, 0, 0, 0, 0x61,
    0x50, 0x4B, 1, 2, 20, 0, 20, 0, 0, 0, 0, 0, 0, 0, 0, 0, 0xBF, 0x67, 0xD9, 0xDC, 1, 0, 0, 0,
    1, 0, 0, 0, 1, 0, 0, 0, 0, 0, 0, 0, 0, 0, 0, 0, 0, 0, 32, 0, 0, 0, 0x61,
    0x50, 0x4B, 5, 6, 0, 0, 0, 0, 2, 0, 2, 0, 94, 0, 0, 0, 64, 0, 0, 0, 0, 0]⟩

def firstTwin : Member := ⟨"a", 0, 0, 0x4C667A2E, 1, 1, 0, 0, 32⟩

def secondTwin : Member := ⟨"a", 0, 0, 0xDCD967BF, 1, 1, 0, 32, 64⟩

theorem read_twins : Directory.read twins = .ok [firstTwin, secondTwin] := by
  have hp : Directory.Placed twins 64 0 (window twins 64 94) :=
    ⟨⟨158, 94, 64, false⟩, by decide +kernel, by decide, by decide, by decide, rfl⟩
  have hm : Directory.members 0 ((window twins 64 94).length + 1) (window twins 64 94) [] =
      .ok ([firstTwin, secondTwin].map fun m => { m with limit := 0 }) := by decide +kernel
  rw [Directory.read_of_placed hp, hm]
  simp [Except.map, Directory.withLimits, firstTwin, secondTwin, List.mergeSort]

theorem read_firstTwin (u : Unpackers) : firstTwin.read u twins = .ok ⟨#[7]⟩ := by
  refine Member.read_eq_ok_iff.2 ⟨31, .stored, by decide +kernel, rfl, by decide +kernel, ?_⟩
  rw [Checksum.crc32, funext₂ Checksum.update_eq]
  decide +kernel

theorem read_secondTwin (u : Unpackers) : secondTwin.read u twins = .ok ⟨#[8]⟩ := by
  refine Member.read_eq_ok_iff.2 ⟨63, .stored, by decide +kernel, rfl, by decide +kernel, ?_⟩
  rw [Checksum.crc32, funext₂ Checksum.update_eq]
  decide +kernel

/-- An archive is listed in each of two openings, and left in between. -/
def twice : List Step := [.enter, .list, .leave, .enter, .list]

theorem held_twice {ms : List Member} (h : Directory.read data = .ok ms) (hms : listing ms = .ok ms) :
    (after u data (twice.take 3)).held = ms ∧ (after u data twice).held = ms ++ ms := by
  have hopened : Archive.list ⟨data, .opened ms⟩ = .ok ms := hms
  constructor <;>
    simp [twice, after, step, ofBytes, Archive.ofBytes, Archive.enter, Archive.leave, h, hopened,
      Except.toOption]

theorem listing_twins : listing [firstTwin, secondTwin] = .ok [firstTwin, secondTwin] := by
  decide +kernel

/-- While it is closed the archive lists its members and reads none. Behind the second opening both
those listed before and those listed since are read, each with its own byte. -/
theorem predicted_twins :
    ((after .none twins (twice.take 3)).step .none .list).1 = .listed (.ok [firstTwin, secondTwin]) ∧
      ((after .none twins (twice.take 3)).step .none (.read 1)).1 =
        .gave (.error (.obstacle .closed)) ∧
      ((after .none twins twice).step .none (.read 1)).1 = .gave (.ok ⟨#[8]⟩) ∧
      ((after .none twins twice).step .none (.read 2)).1 = .gave (.ok ⟨#[7]⟩) := by
  have hclosed := predicted .none twins (twice.take 3)
  have hopened := predicted .none twins twice
  obtain ⟨hbefore, hheld⟩ := held_twice (u := .none) read_twins listing_twins
  have hentered : Entered twice := ⟨[.enter, .list, .leave], [.list], rfl, by decide⟩
  have hleft : ¬Entered (twice.take 3) := by
    have hsplit : twice.take 3 = [.enter, .list] ++ [.leave] := rfl
    rw [hsplit, entered_concat_iff]
    simp
  refine ⟨?_, ?_, ?_, ?_⟩
  · rw [hclosed.listed _ read_twins (by decide), listing_twins]
  · exact hclosed.closed (by decide) hleft 1 secondTwin (by rw [hbefore]; rfl)
  · rw [hopened.gave hentered 1 secondTwin (by rw [hheld]; rfl), read_secondTwin]
  · rw [hopened.gave hentered 2 firstTwin (by rw [hheld]; rfl), read_firstTwin]

end Use

end JarRank.Zip
