import JarRank.Proofs.Bytes.Checksum
import JarRank.Proofs.Ranking.Containment
import JarRank.Proofs.Ranking.Interleaving
import JarRank.Proofs.Zip.MemberReading

/-!
# Faults of members

A member of an open archive is read, or its fault is recorded under its path and
the other members are examined as if it were not there. The exceptions are those
of reading a member; then there is no report. What the libraries complain about is
among them, and the libraries are those that the host has.
-/
namespace JarRank
namespace Analysis

variable {host : Host} {u : Zip.Unpackers} {profile : Profile} {data : ByteArray} {a : Zip.Archive}
  {ms : List Zip.Member}

/-- A member as an entry to examine. -/
def entry (u : Zip.Unpackers) (a : Zip.Archive) (m : Zip.Member) : Entry :=
  ⟨m.path, (a.read u m).mapError .ofFault⟩

/-- The members that are examined. -/
def selected (profile : Profile) (ms : List Zip.Member) : List Zip.Member :=
  ms.filter fun m => profile.selects m.path m.isDirectory

theorem entries_eq (u : Zip.Unpackers) (profile : Profile) (a : Zip.Archive) (ms : List Zip.Member) :
    entries u profile a ms = (selected profile ms).map (entry u a) := rfl

theorem entry_blocked_iff {m : Zip.Member} {obstacle : Zip.Obstacle} :
    (entry u a m).content = .error (.blocked obstacle) ↔ a.read u m = .error (.obstacle obstacle) := by
  unfold entry
  cases a.read u m with
  | ok content => simp
  | error fault => cases fault <;> simp [Unread.ofFault]

/-- A member is contained unless reading it meets what is more than a fault of it. -/
theorem entry_contained_iff (ho : (Zip.Archive.ofBytes data).enter = (.ok (), a)) {m : Zip.Member} :
    (entry u a m).Contained ↔ ¬ ∃ obstacle, m.Meets u data obstacle := by
  simp only [Entry.Contained, ne_eq, entry_blocked_iff, Zip.Archive.read_of_entered ho,
    Zip.Member.read_eq_obstacle_iff, not_exists]

theorem content_of_read {m : Zip.Member} {content : ByteArray} (h : a.read u m = .ok content) :
    (entry u a m).content = .ok content := by
  simp [entry, h]

/-- What is recorded of a member with a fault names the member and says what the fault is. -/
theorem entry_failsWith {m : Zip.Member} {fault : Zip.MemberFault} {code : String}
    (h : a.read u m = .error (.member fault)) :
    (entry u a m).FailsWith code ⟨m.path, "ENTRY_UNREADABLE", none,
      "Cannot read archive entry " ++ m.path ++ ": " ++ fault.reason⟩ := by
  have hc : (entry u a m).content = .error (.unreadable fault.reason) := by
    simp [entry, h, Unread.ofFault]
  exact .unreadable hc

theorem exists_blocked_iff (host : Host) (profile : Profile)
    (ho : (Zip.Archive.ofBytes data).enter = (.ok (), a)) (hl : a.list = .ok ms) :
    (∃ fault, (ofBytes host profile data).result = .error fault) ↔
      ∃ m ∈ selected profile ms, ∃ obstacle, m.Meets host.unpackers data obstacle := by
  have hblocked : (∃ e ∈ entries host.unpackers profile a ms, ¬ e.Contained) ↔
      ∃ m ∈ selected profile ms, ∃ obstacle, m.Meets host.unpackers data obstacle := by
    simp only [entries_eq, List.mem_map, exists_exists_and_eq_and, entry_contained_iff ho, not_not]
  rw [result_of_listed host profile ho hl, ← hblocked,
    ← Aggregation.result_eq_error_iff host.clock profile]
  cases (Aggregation.ofEntries host.clock profile
    (entries host.unpackers profile a ms)).result <;> simp

theorem exists_report (host : Host) (profile : Profile)
    (ho : (Zip.Archive.ofBytes data).enter = (.ok (), a)) (hl : a.list = .ok ms)
    (h : ∀ m ∈ selected profile ms, ¬ ∃ obstacle, m.Meets host.unpackers data obstacle) :
    ∃ r, (ofBytes host profile data).result = .ok r ∧
      r.Covers profile ((selected profile ms).map (entry host.unpackers a)) := by
  have hcontained : ∀ e ∈ (selected profile ms).map (entry host.unpackers a), e.Contained := by
    intro e he
    obtain ⟨m, hm, rfl⟩ := List.mem_map.1 he
    exact (entry_contained_iff ho).2 (h m hm)
  obtain ⟨r, hr, hc⟩ := Aggregation.exists_covers host.clock profile hcontained
  refine ⟨r, ?_, hc⟩
  rw [result_of_listed host profile ho hl, entries_eq, hr, Except.mapError_ok]

/-- While an archive is open, reading one of its members gives bytes or a fault that is recorded
under the path of the member, except where it meets one of four obstacles; a member that is stored or
deflated meets one of three. An analysis has no report exactly if a member that it examines meets one,
and otherwise the report has the methods of every class file that can be read and decoded, whatever is
wrong with the others. -/
theorem members_isolated (host : Host) (profile : Profile)
    (ho : (Zip.Archive.ofBytes data).enter = (.ok (), a)) (hl : a.list = .ok ms) :
    (∀ m ∈ ms,
      (∀ obstacle, a.read host.unpackers m = .error (.obstacle obstacle) ↔
        m.Meets host.unpackers data obstacle) ∧
      (¬ m.PackedOtherwise → ∀ obstacle,
        m.Meets host.unpackers data obstacle ↔ m.Misplaced data obstacle) ∧
      ((¬ ∃ obstacle, m.Meets host.unpackers data obstacle) →
        (∃ content, a.read host.unpackers m = .ok content) ∨
          ∃ fault, a.read host.unpackers m = .error (.member fault) ∧
            (entry host.unpackers a m).FailsWith profile.codeAttribute
              ⟨m.path, "ENTRY_UNREADABLE", none,
                "Cannot read archive entry " ++ m.path ++ ": " ++ fault.reason⟩)) ∧
    ((∃ fault, (ofBytes host profile data).result = .error fault) ↔
      ∃ m ∈ selected profile ms, ∃ obstacle, m.Meets host.unpackers data obstacle) ∧
    ((∀ m ∈ selected profile ms, ¬ ∃ obstacle, m.Meets host.unpackers data obstacle) →
      ∃ r, (ofBytes host profile data).result = .ok r ∧
        r.stats.entriesScanned = (selected profile ms).length ∧
        r.methods.Perm ((selected profile ms).flatMap fun m =>
          (entry host.unpackers a m).rows profile.codeAttribute) ∧
        r.failures = (selected profile ms).filterMap fun m =>
          (entry host.unpackers a m).failure? profile.codeAttribute) := by
  refine ⟨fun m _ => ⟨fun obstacle => ?_, fun hm obstacle => Zip.Member.meets_iff_misplaced hm,
    fun hm => ?_⟩, exists_blocked_iff host profile ho hl, fun h => ?_⟩
  · rw [Zip.Archive.read_of_entered ho, Zip.Member.read_eq_obstacle_iff]
  · rcases Zip.Archive.read_of_not_meets ho hm with hread | ⟨fault, hfault⟩
    · exact .inl hread
    · exact .inr ⟨fault, hfault, entry_failsWith hfault⟩
  · obtain ⟨r, hr, hc⟩ := exists_report host profile ho hl h
    refine ⟨r, hr, ?_, ?_, ?_⟩
    · rw [hc.entriesScanned, List.length_map]
    · rw [hc.methods, List.flatMap_map]
      exact Row.ranked_perm _
    · rw [hc.failures, List.filterMap_map]
      rfl

/-- A class with one method that has no bytecode. -/
def bareClass : Bytes := [0xCA, 0xFE, 0xBA, 0xBE, 0, 0, 0, 52, 0, 3, 1, 0, 1, 0x41, 7, 0, 1, 0, 0x21,
  0, 2, 0, 0, 0, 0, 0, 0, 0, 1, 0, 1, 0, 1, 0, 1, 0, 0, 0, 0]

/-- What a member's header and the directory both say of it, up to the length of its name. -/
def particulars : Bytes := [20, 0, 0, 8, 0, 0, 0, 0, 0, 0, 0x8D, 0x64, 0x2F, 0xCA, 39, 0, 0, 0,
  39, 0, 0, 0, 7, 0]

/-- A name that begins with a byte and ends as those of class files do. -/
def nameBytes (first : UInt8) : Bytes := first :: [0x2E, 0x63, 0x6C, 0x61, 0x73, 0x73]

/-- A directory of two members, `A.class` and `B.class`. -/
def directoryBytes : Bytes :=
  Zip.Directory.signature ++ [20, 0] ++ particulars ++ List.replicate 16 0 ++ nameBytes 0x41 ++
    Zip.Directory.signature ++ [20, 0] ++ particulars ++ List.replicate 12 0 ++ [0x4C, 0, 0, 0] ++
      nameBytes 0x42

/-- An archive with this directory, where the own header of the second member has a name that begins
with another byte. -/
def twoMembers (first : UInt8) : ByteArray :=
  ⟨(Zip.Member.signature ++ particulars ++ [0, 0] ++ nameBytes 0x41 ++ bareClass ++
    Zip.Member.signature ++ particulars ++ [0, 0] ++ nameBytes first ++ bareClass ++ directoryBytes ++
    Zip.EndRecord.signature ++ [0, 0, 0, 0, 2, 0, 2, 0, 0x6A, 0, 0, 0, 0x98, 0, 0, 0, 0, 0]).toArray⟩

def firstMember : Zip.Member := ⟨"A.class", 0x800, 0, 0xCA2F648D, 39, 39, 0, 0, 76⟩

def secondMember : Zip.Member := ⟨"B.class", 0x800, 0, 0xCA2F648D, 39, 39, 0, 76, 152⟩

/-- The members in the directory. -/
def bothMembers : List Zip.Member := [firstMember, secondMember]

theorem read_of_directoryBytes {data : ByteArray}
    (hr : Zip.EndRecord.find data = .ok ⟨258, 106, 152, false⟩)
    (hw : Zip.window data 152 106 = directoryBytes) : Zip.Directory.read data = .ok bothMembers := by
  have hp : Zip.Directory.Placed data 152 0 directoryBytes :=
    ⟨_, hr, by decide, by decide, by decide, hw.symm⟩
  have hm : Zip.Directory.members 0 (directoryBytes.length + 1) directoryBytes [] =
      .ok (bothMembers.map fun m => { m with limit := 0 }) := by decide +kernel
  rw [Zip.Directory.read_of_placed hp, hm]
  simp [Except.map, Zip.Directory.withLimits, bothMembers, firstMember, secondMember, List.mergeSort]

/-- One of these archives after it has been opened. -/
def openedWith (first : UInt8) : Zip.Archive := ⟨twoMembers first, .opened bothMembers⟩

theorem list_openedWith (first : UInt8) : (openedWith first).list = .ok bothMembers := by
  have hpaths : (bothMembers.any fun m => m.path.isEmpty) = false := by decide +kernel
  simp only [openedWith, Zip.Archive.list, hpaths, Bool.false_eq_true, if_false]

theorem enter_twoMembers (first : UInt8)
    (hr : Zip.EndRecord.find (twoMembers first) = .ok ⟨258, 106, 152, false⟩) :
    (Zip.Archive.ofBytes (twoMembers first)).enter = (.ok (), openedWith first) := by
  have hw : Zip.window (twoMembers first) 152 106 = directoryBytes := by
    rw [Zip.window_eq]
    rfl
  exact Zip.Archive.enter_eq_ok_iff.2 ⟨_, read_of_directoryBytes hr hw, rfl⟩

theorem selected_bothMembers : selected .standard bothMembers = bothMembers := by decide +kernel

theorem not_packedOtherwise : ∀ m ∈ bothMembers, ¬ m.PackedOtherwise := by
  simp [bothMembers, firstMember, secondMember, Zip.Member.PackedOtherwise]

theorem crc32_bareClass : Checksum.crc32 ⟨bareClass.toArray⟩ = 0xCA2F648D := by
  have hupdate := funext₂ Checksum.update_eq
  rw [Checksum.crc32, hupdate]
  decide +kernel

theorem read_firstMember (u : Zip.Unpackers) :
    (openedWith 0x43).read u firstMember = .ok ⟨bareClass.toArray⟩ := by
  refine Zip.Member.read_eq_ok_iff.2 ⟨37, .stored, by decide +kernel, rfl, by decide +kernel, ?_⟩
  rw [crc32_bareClass]
  rfl

theorem payloadStart_secondMember : secondMember.payloadStart (twoMembers 0x43) =
      .error (.member (.nameDiffers "B.class" (nameBytes 0x43))) ∧
    secondMember.payloadStart (twoMembers 0xFF) =
      .error (.obstacle (.nameEncoding ⟨.invalidStart, 0, 1, 0xFF⟩)) := by decide +kernel

theorem read_secondMember (u : Zip.Unpackers) : (openedWith 0x43).read u secondMember =
    .error (.member (.nameDiffers "B.class" (nameBytes 0x43))) := by
  change secondMember.read u (twoMembers 0x43) = _
  rw [Zip.Member.read, payloadStart_secondMember.1]
  rfl

theorem decode_bareClass : ClassFile.Summary.decode (⟨bareClass.toArray⟩ : ByteArray).toList "Code" =
    .ok ⟨"A", 52, 0, [⟨"A", "A", 0⟩]⟩ := by
  rw [Bytes.toList_eq_data, ClassFile.Summary.decode_eq]
  decide +kernel

theorem rows_bothMembers (u : Zip.Unpackers) :
    (bothMembers.flatMap fun m => (entry u (openedWith 0x43) m).rows "Code") =
      [⟨"A", "A", "A", 0⟩] := by
  have hfirst := Entry.rows_of_decoded (content_of_read (read_firstMember u)) decode_bareClass
  have hsecond : (entry u (openedWith 0x43) secondMember).rows "Code" = [] := by
    simp only [Entry.rows, (entry_failsWith (read_secondMember u)).summary?_eq]
  simp only [bothMembers, List.flatMap_cons, List.flatMap_nil, hfirst, hsecond, List.append_nil]
  rfl

/-- The name in the header of the second member is another one: that member fails, and the method
of the first one is reported. -/
theorem members_isolated_nameDiffers :
    (Zip.Archive.ofBytes (twoMembers 0x43)).enter = (.ok (), openedWith 0x43) ∧
      (openedWith 0x43).list = .ok bothMembers ∧
      (∀ m ∈ selected .standard bothMembers, ¬ ∃ obstacle, m.Meets .none (twoMembers 0x43) obstacle) ∧
      ∃ r, (ofBytes .bare .standard (twoMembers 0x43)).result = .ok r ∧ r.stats.entriesScanned = 2 ∧
        r.methods.Perm [⟨"A", "A", "A", 0⟩] := by
  have ho := enter_twoMembers 0x43 (by decide +kernel)
  have hl := list_openedWith 0x43
  have hmeets : ∀ m ∈ bothMembers, ¬ ∃ obstacle, m.Meets .none (twoMembers 0x43) obstacle := by
    intro m hm hobstacle
    obtain ⟨obstacle, hobstacle⟩ := hobstacle
    rw [← Zip.Member.read_eq_obstacle_iff, ← Zip.Archive.read_of_entered ho] at hobstacle
    rcases List.mem_pair.1 hm with rfl | rfl
    · rw [read_firstMember] at hobstacle
      cases hobstacle
    · rw [read_secondMember] at hobstacle
      cases hobstacle
  have hselected := selected_bothMembers
  obtain ⟨r, hr, hscanned, hperm, -⟩ :=
    (members_isolated .bare .standard ho hl).2.2 (hselected ▸ hmeets)
  rw [hselected] at hscanned hperm ⊢
  exact ⟨ho, hl, hmeets, r, hr, hscanned, rows_bothMembers _ ▸ hperm⟩

/-- The name in the header of the second member is no UTF-8: nothing is reported. -/
theorem nameEncoding_not_isolated :
    (Zip.Archive.ofBytes (twoMembers 0xFF)).enter = (.ok (), openedWith 0xFF) ∧
      (openedWith 0xFF).list = .ok bothMembers ∧ secondMember ∈ bothMembers ∧
      (∀ m ∈ bothMembers, ¬ m.PackedOtherwise) ∧
      ¬ ((∃ content, (openedWith 0xFF).read .none secondMember = .ok content) ∨
        ∃ fault, (openedWith 0xFF).read .none secondMember = .error (.member fault)) ∧
      ¬ ∃ r, (ofBytes .bare .standard (twoMembers 0xFF)).result = .ok r := by
  have ho := enter_twoMembers 0xFF (by decide +kernel)
  have hl := list_openedWith 0xFF
  have hmem : secondMember ∈ bothMembers := List.mem_pair.2 (.inr rfl)
  have hread : secondMember.read .none (twoMembers 0xFF) =
      .error (.obstacle (.nameEncoding ⟨.invalidStart, 0, 1, 0xFF⟩)) := by
    rw [Zip.Member.read, payloadStart_secondMember.2]
    rfl
  have hmeets := hread
  rw [Zip.Member.read_eq_obstacle_iff] at hmeets
  obtain ⟨fault, hfault⟩ := (exists_blocked_iff .bare .standard ho hl).2
    ⟨secondMember, selected_bothMembers ▸ hmem, _, hmeets⟩
  refine ⟨ho, hl, hmem, not_packedOtherwise, ?_, ?_⟩
  · rw [Zip.Archive.read_of_entered ho, hread]
    simp
  · rw [hfault]
    simp

end Analysis
end JarRank
