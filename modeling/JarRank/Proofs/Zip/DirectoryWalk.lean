import JarRank.Proofs.Outcome
import JarRank.Zip.Archive

/-!
# The walk over a directory

Headers are taken off the front of a directory one by one, each with its name, its
extra fields and its comment. The walk ends where nothing is left, or in front of
a header that is at fault; which headers come behind that one does not matter, nor
how much fuel there is beyond the length of the directory.

A name, extra fields and a comment may be cut off by the end of the directory. The
walk does not mind, and so the last name may be shorter than it is declared.

The size of a directory is a number of eight bytes at most, and each header takes some
of the directory, so that there are fewer members than eight bytes can count.
-/
namespace JarRank.Zip

theorem window_eq (data : ByteArray) (start length : Nat) :
    window data start length = (data.data.toList.drop start).take length := by
  have hlen : data.data.toList.length = data.size := rfl
  unfold window
  split
  · next h => rw [List.drop_eq_nil_of_le (hlen ▸ h), List.take_nil]
  · next h =>
      rw [Bytes.toList_eq_data, ByteArray.data_extract, Array.toList_extract, List.extract_eq_take_drop,
        List.take_eq_take_iff, List.length_drop, hlen]
      omega

theorem field_lt (bs : Bytes) (start : Nat) {width : Nat} (h : width ≤ 8) :
    field bs start width < 0x10000000000000000 := by
  have hlt := Bytes.littleEndian_lt ((bs.drop start).take width)
  have hcapacity : ∀ n ≤ 8, Bytes.capacity n ≤ 0x10000000000000000 := by decide
  have hlength : ((bs.drop start).take width).length ≤ 8 := by
    rw [List.length_take]
    omega
  exact Nat.lt_of_lt_of_le hlt (hcapacity _ hlength)

namespace EndRecord

theorem directorySize_lt_of_withZip64 {data : ByteArray} {r r' : EndRecord}
    (hr : r.directorySize < 0x10000000000000000) (h : withZip64 data r = .ok r') :
    r'.directorySize < 0x10000000000000000 := by
  unfold withZip64 at h
  dsimp only at h
  split at h
  · cases h
    exact hr
  · split at h
    · cases h
    · split at h
      · cases h
        exact hr
      · cases h
        exact field_lt _ 40 (by decide)

theorem directorySize_lt {data : ByteArray} {r : EndRecord} (h : find data = .ok r) :
    r.directorySize < 0x10000000000000000 := by
  have hshort : ∀ bs position, (ofBytes bs position).directorySize < 0x10000000000000000 :=
    fun bs _ => field_lt bs 12 (by decide)
  unfold find at h
  dsimp only at h
  split at h
  · exact directorySize_lt_of_withZip64 (hshort _ _) h
  · split at h
    · cases h
    · split at h
      · cases h
      · exact directorySize_lt_of_withZip64 (hshort _ _) h

end EndRecord

namespace Directory

/-- A header and what belongs to it, and the bytes behind. -/
structure Row where
  header : Bytes
  name : Bytes
  extra : Bytes
  rest : Bytes

/-- The parts of the header that some bytes start with, as far as the bytes go. -/
def row (bs : Bytes) : Row :=
  let header := bs.take headerSize
  let behindName := (bs.drop headerSize).drop (field header 28 2)
  { header
    name := (bs.drop headerSize).take (field header 28 2)
    extra := behindName.take (field header 30 2)
    rest := (behindName.drop (field header 30 2)).drop (field header 32 2) }

/-- The member that a header describes, before its limit is known. -/
def Row.member (base : Int) (r : Row) : Except OpenFault Member :=
  Directory.member r.header r.name r.extra base

/-- A whole header with its signature stands in front. -/
def Signed (bs : Bytes) : Prop := headerSize ≤ bs.length ∧ bs.take 4 = signature

/-- The members of the headers in front of the rest of a directory. -/
inductive Lists (base : Int) : Bytes → List Member → Bytes → Prop
  | nil (bs : Bytes) : Lists base bs [] bs
  | cons {bs rest : Bytes} {m : Member} {ms : List Member} : Signed bs →
      (row bs).member base = .ok m → Lists base (row bs).rest ms rest → Lists base bs (m :: ms) rest

/-- Why the walk does not get past the header in front. -/
inductive Stops (base : Int) (bs : Bytes) : OpenFault → Prop
  | truncated : bs ≠ [] → bs.length < headerSize → Stops base bs (.container .directoryTruncated)
  | signature : headerSize ≤ bs.length → bs.take 4 ≠ signature →
      Stops base bs (.container .directorySignature)
  | member {e : OpenFault} : Signed bs → (row bs).member base = .error e → Stops base bs e

variable {base : Int} {bs rest : Bytes} {acc : List Member}

theorem Signed.ne_nil (h : Signed bs) : bs ≠ [] := by
  intro hb
  subst hb
  exact absurd h.1 (by decide)

theorem length_rest_lt (h : Signed bs) : (row bs).rest.length < bs.length := by
  have hl := h.1
  unfold headerSize at hl
  simp only [row, List.length_drop, headerSize]
  omega

theorem Lists.length_le {ms : List Member} (h : Lists base bs ms rest) : ms.length ≤ bs.length := by
  induction h with
  | nil bs => exact Nat.zero_le _
  | cons hs _ _ ih =>
      have hlt := length_rest_lt hs
      rw [List.length_cons]
      omega

theorem members_nil (fuel : Nat) : members base (fuel + 1) [] acc = .ok acc.reverse := rfl

theorem split?_eq (hl : headerSize ≤ bs.length) :
    Bytes.split? headerSize bs = some (bs.take headerSize, bs.drop headerSize) := by
  have hd : Bytes.drop? headerSize bs = some (bs.drop headerSize) :=
    Bytes.drop?_eq_some_iff.2 ⟨hl, rfl⟩
  rw [Bytes.split?, hd]
  rfl

theorem members_signed (h : Signed bs) (fuel : Nat) :
    members base (fuel + 1) bs acc =
      match (row bs).member base with
      | .error e => .error e
      | .ok m => members base fuel (row bs).rest (m :: acc) := by
  have he : bs.isEmpty = false := by
    rw [List.isEmpty_eq_false_iff]
    exact h.ne_nil
  have hs : (bs.take headerSize).take 4 = signature := by
    rw [List.take_take]
    exact h.2
  rw [members, he, split?_eq h.1]
  simp only [Bool.false_eq_true, ite_false, hs, ne_eq, not_true_eq_false]
  rfl

theorem members_stops {e : OpenFault} (h : Stops base bs e) (fuel : Nat) :
    members base (fuel + 1) bs acc = .error e := by
  cases h with
  | truncated hne hl =>
      have he : bs.isEmpty = false := by
        rw [List.isEmpty_eq_false_iff]
        exact hne
      have hs : Bytes.split? headerSize bs = none := by
        rw [Bytes.split?, Bytes.drop?_eq_none_iff.2 hl]
        rfl
      rw [members, he, hs]
      rfl
  | signature hl hs =>
      have he : bs.isEmpty = false := by
        rw [List.isEmpty_eq_false_iff]
        intro hb
        subst hb
        exact absurd hl (by decide)
      have ht : (bs.take headerSize).take 4 ≠ signature := by
        rw [List.take_take]
        exact hs
      rw [members, he, split?_eq hl]
      simp only [Bool.false_eq_true, ite_false, ht, ne_eq, not_false_eq_true, ite_true]
  | member hs hm => rw [members_signed hs, hm]

/-- Where something is left, the walk gets past the header in front or stops there. -/
theorem signed_or_stops (base : Int) (hne : bs ≠ []) :
    (∃ m, Signed bs ∧ (row bs).member base = .ok m) ∨ ∃ e, Stops base bs e := by
  by_cases hl : headerSize ≤ bs.length
  · by_cases hs : bs.take 4 = signature
    · cases hm : (row bs).member base with
      | ok m => exact .inl ⟨m, ⟨hl, hs⟩, rfl⟩
      | error e => exact .inr ⟨e, .member ⟨hl, hs⟩ hm⟩
    · exact .inr ⟨_, .signature hl hs⟩
  · exact .inr ⟨_, .truncated hne (Nat.not_le.1 hl)⟩

/-- Every walk ends, behind the last header or in front of one at fault. -/
theorem exists_lists (base : Int) (bs : Bytes) :
    ∃ ms rest, Lists base bs ms rest ∧ (rest = [] ∨ ∃ e, Stops base rest e) := by
  induction hn : bs.length using Nat.strongRecOn generalizing bs with
  | ind n ih =>
      subst hn
      by_cases hb : bs = []
      · exact ⟨[], bs, .nil bs, .inl hb⟩
      · rcases signed_or_stops base hb with ⟨m, hs, hm⟩ | he
        · obtain ⟨ms, rest, hr, hend⟩ := ih _ (length_rest_lt hs) (row bs).rest rfl
          exact ⟨m :: ms, rest, .cons hs hm hr, hend⟩
        · exact ⟨[], bs, .nil bs, .inr he⟩

/-- Walking over headers gathers their members, with fuel to spare for the rest. -/
theorem Lists.members {ms : List Member} (h : Lists base bs ms rest) :
    ∀ (fuel : Nat) (acc : List Member), bs.length < fuel → ∃ left, rest.length < left + 1 ∧
      members base fuel bs acc = members base (left + 1) rest (ms.reverse ++ acc) := by
  -- Every header takes one unit of fuel and at least one byte.
  induction h with
  | nil bs =>
      intro fuel acc hf
      obtain ⟨left, rfl⟩ := Nat.exists_eq_succ_of_ne_zero (Nat.ne_zero_of_lt hf)
      exact ⟨left, hf, rfl⟩
  | @cons bs rest m ms hs hm _ ih =>
      intro fuel acc hf
      obtain ⟨left, rfl⟩ := Nat.exists_eq_succ_of_ne_zero (Nat.ne_zero_of_lt hf)
      have hlt := length_rest_lt hs
      obtain ⟨left', hl, he⟩ := ih left (m :: acc) (by omega)
      refine ⟨left', hl, ?_⟩
      rw [members_signed hs, hm, List.reverse_cons, List.append_assoc]
      exact he

theorem members_eq_ok_iff {fuel : Nat} (hf : bs.length < fuel) {ms : List Member} :
    members base fuel bs [] = .ok ms ↔ Lists base bs ms [] := by
  constructor
  · intro h
    obtain ⟨ms', rest, hr, rfl | ⟨e, he⟩⟩ := exists_lists base bs
    · obtain ⟨left, -, hm⟩ := hr.members fuel [] hf
      rw [hm, members_nil, List.append_nil, List.reverse_reverse] at h
      cases h
      exact hr
    · obtain ⟨left, -, hm⟩ := hr.members fuel [] hf
      rw [hm, members_stops he] at h
      cases h
  · intro h
    obtain ⟨left, -, hm⟩ := h.members fuel [] hf
    rw [hm, members_nil, List.append_nil, List.reverse_reverse]

theorem members_eq_error_iff {fuel : Nat} (hf : bs.length < fuel) {e : OpenFault} :
    members base fuel bs [] = .error e ↔ ∃ ms rest, Lists base bs ms rest ∧ Stops base rest e := by
  constructor
  · intro h
    obtain ⟨ms, rest, hr, rfl | ⟨e', he⟩⟩ := exists_lists base bs
    · obtain ⟨left, -, hm⟩ := hr.members fuel [] hf
      rw [hm, members_nil] at h
      cases h
    · obtain ⟨left, -, hm⟩ := hr.members fuel [] hf
      rw [hm, members_stops he] at h
      cases h
      exact ⟨ms, rest, hr, he⟩
  · intro h
    obtain ⟨ms, rest, hr, he⟩ := h
    obtain ⟨left, -, hm⟩ := hr.members fuel [] hf
    rw [hm, members_stops he]

/-- The header in front is whole, its name can be read, and it asks for a later version. -/
structure Newer (bs : Bytes) : Prop where
  signed : Signed bs
  name : ∃ s, decodeName (field (row bs).header 8 2) (row bs).name = .ok s
  version : knownVersion < field (row bs).header 6 1

theorem member_eq_version_iff {header name extra : Bytes} {needed : Nat} :
    member header name extra base = .error (.version needed) ↔
      (∃ s, decodeName (field header 8 2) name = .ok s) ∧ knownVersion < field header 6 1 ∧
        needed = field header 6 1 := by
  unfold member
  cases hn : decodeName (field header 8 2) name with
  | error flaw => simp [hn, bind, Except.bind]
  | ok s =>
      by_cases hv : knownVersion < field header 6 1
      · simp [hn, hv, bind, Except.bind, eq_comm]
      · simp only [hn, hv, Except.mapError_ok, bind, Except.bind, if_false]
        cases Extent.withExtra extra.length extra
          ⟨field header 24 4, field header 20 4, field header 42 4⟩ <;>
          simp [pure, Except.pure]

theorem stops_version_iff {needed : Nat} :
    Stops base bs (.version needed) ↔ Newer bs ∧ needed = field (row bs).header 6 1 := by
  constructor
  · intro h
    cases h with
    | member hs hm =>
        obtain ⟨hn, hv, he⟩ := member_eq_version_iff.1 hm
        exact ⟨⟨hs, hn, hv⟩, he⟩
  · intro h
    obtain ⟨⟨hs, hn, hv⟩, he⟩ := h
    exact .member hs (member_eq_version_iff.2 ⟨hn, hv, he⟩)

/-- Where the directory of an archive begins, from where its offsets count, and what it holds. -/
def Placed (data : ByteArray) (start base : Int) (bs : Bytes) : Prop :=
  ∃ r : EndRecord, EndRecord.find data = .ok r ∧
    start = r.position - r.directorySize -
      (if r.isZip64 then EndRecord.zip64Size + EndRecord.locatorSize else 0 : Int) ∧
    0 ≤ start ∧ base = start - r.directoryOffset ∧ bs = window data start.toNat r.directorySize

theorem read_of_placed {data : ByteArray} {start : Int} (h : Placed data start base bs) :
    read data = (members base (bs.length + 1) bs []).map (withLimits start) := by
  obtain ⟨r, hr, rfl, hpos, rfl, rfl⟩ := h
  unfold read
  rw [hr]
  simp only [Except.mapError_ok, bind, Except.bind, if_neg (Int.not_lt.2 hpos)]
  rfl

theorem placed_or_container (data : ByteArray) :
    (∃ start base bs, Placed data start base bs) ∨
      ∃ fault, read data = .error (.container fault) := by
  unfold read
  cases hr : EndRecord.find data with
  | error fault => exact .inr ⟨fault, rfl⟩
  | ok r =>
      by_cases hpos : (r.position - r.directorySize -
          (if r.isZip64 then EndRecord.zip64Size + EndRecord.locatorSize else 0 : Int)) < 0
      · refine .inr ⟨.directoryOffset, ?_⟩
        simp only [Except.mapError_ok, bind, Except.bind, if_pos hpos]
      · exact .inl ⟨_, _, _, r, hr, rfl, Int.not_lt.1 hpos, rfl, rfl⟩

theorem read_eq_ok_iff {data : ByteArray} {ms : List Member} :
    read data = .ok ms ↔ ∃ start base bs ms', Placed data start base bs ∧ Lists base bs ms' [] ∧
      ms = withLimits start ms' := by
  constructor
  · intro h
    rcases placed_or_container data with ⟨start, base, bs, hp⟩ | ⟨fault, he⟩
    · rw [read_of_placed hp] at h
      cases hm : members base (bs.length + 1) bs [] with
      | error e =>
          rw [hm] at h
          cases h
      | ok ms' =>
          rw [hm] at h
          cases h
          exact ⟨start, base, bs, ms', hp, (members_eq_ok_iff (Nat.lt_succ_self _)).1 hm, rfl⟩
    · rw [he] at h
      cases h
  · intro h
    obtain ⟨start, base, bs, ms', hp, hl, rfl⟩ := h
    rw [read_of_placed hp, (members_eq_ok_iff (Nat.lt_succ_self _)).2 hl]
    rfl

theorem read_eq_version_iff {data : ByteArray} {needed : Nat} :
    read data = .error (.version needed) ↔ ∃ start base bs ms rest, Placed data start base bs ∧
      Lists base bs ms rest ∧ Newer rest ∧ needed = field (row rest).header 6 1 := by
  constructor
  · intro h
    rcases placed_or_container data with ⟨start, base, bs, hp⟩ | ⟨fault, he⟩
    · rw [read_of_placed hp] at h
      cases hm : members base (bs.length + 1) bs [] with
      | ok ms' =>
          rw [hm] at h
          cases h
      | error e =>
          rw [hm] at h
          cases h
          obtain ⟨ms, rest, hl, hs⟩ := (members_eq_error_iff (Nat.lt_succ_self _)).1 hm
          exact ⟨start, base, bs, ms, rest, hp, hl, stops_version_iff.1 hs⟩
    · rw [he] at h
      cases h
  · intro h
    obtain ⟨start, base, bs, ms, rest, hp, hl, hs⟩ := h
    rw [read_of_placed hp, (members_eq_error_iff (Nat.lt_succ_self _)).2
      ⟨ms, rest, hl, stops_version_iff.2 hs⟩]
    rfl

/-- Limits are all that is changed when limits are set. -/
theorem map_path_withLimits (start : Int) (ms : List Member) :
    (withLimits start ms).map Member.path = ms.map Member.path := by
  have hsize : ∀ (xs : List ((Member × Nat) × Int)) (a : Array Int),
      (xs.foldl (fun a m => a.setIfInBounds m.1.2 m.2) a).size = a.size := by
    intro xs
    induction xs with
    | nil => exact fun a => rfl
    | cons x xs ih =>
        intro a
        rw [List.foldl_cons, ih, Array.size_setIfInBounds]
  have hzip : ∀ (ms : List Member) (limits : List Int), limits.length = ms.length →
      ((ms.zip limits).map fun x => { x.1 with limit := x.2 }).map Member.path =
        ms.map Member.path := by
    intro ms
    induction ms with
    | nil => exact fun limits _ => rfl
    | cons m ms ih =>
        intro limits hl
        cases limits with
        | nil => cases hl
        | cons limit limits =>
            have ht := ih limits (Nat.succ.inj hl)
            simp only [List.zip_cons_cons, List.map_cons, ht]
            rfl
  refine hzip ms _ ?_
  -- There is one limit for each member, in whatever order they are set.
  rw [Array.length_toList, hsize, Array.size_replicate]

theorem length_withLimits (start : Int) (ms : List Member) :
    (withLimits start ms).length = ms.length := by
  simpa using congrArg List.length (map_path_withLimits start ms)

theorem length_lt_of_read {data : ByteArray} {ms : List Member} (h : read data = .ok ms) :
    ms.length < 0x10000000000000000 := by
  obtain ⟨start, base, bs, ms', ⟨r, hr, -, -, -, rfl⟩, hl, rfl⟩ := read_eq_ok_iff.1 h
  have hsize := EndRecord.directorySize_lt hr
  have hlength := hl.length_le
  rw [window_eq, List.length_take] at hlength
  rw [length_withLimits]
  omega

theorem exists_nameless_withLimits {start : Int} {ms : List Member} :
    (∃ m ∈ withLimits start ms, m.path = "") ↔ ∃ m ∈ ms, m.path = "" := by
  rw [← List.mem_map, map_path_withLimits, List.mem_map]

end Directory

/-- An archive whose directory asks for a later version, in front of any other fault. -/
def AsksNewer (data : ByteArray) : Prop :=
  ∃ start base bs ms rest, Directory.Placed data start base bs ∧ Directory.Lists base bs ms rest ∧
    Directory.Newer rest

/-- An archive whose directory is without a fault, but names a member with an empty path. -/
def Nameless (data : ByteArray) : Prop :=
  ∃ start base bs ms, Directory.Placed data start base bs ∧ Directory.Lists base bs ms [] ∧
    ∃ m ∈ ms, m.path = ""

namespace Archive

theorem enter_eq_version_iff {data : ByteArray} :
    (∃ needed, (ofBytes data).enter.1 = .error (.version needed)) ↔ AsksNewer data := by
  have he : ∀ needed, (ofBytes data).enter.1 = .error (.version needed) ↔
      Directory.read data = .error (.version needed) := by
    intro needed
    unfold enter ofBytes
    cases Directory.read data <;> simp
  constructor
  · intro h
    obtain ⟨needed, h⟩ := h
    obtain ⟨start, base, bs, ms, rest, hp, hl, hn, -⟩ :=
      Directory.read_eq_version_iff.1 ((he needed).1 h)
    exact ⟨start, base, bs, ms, rest, hp, hl, hn⟩
  · intro h
    obtain ⟨start, base, bs, ms, rest, hp, hl, hn⟩ := h
    exact ⟨_, (he _).2 (Directory.read_eq_version_iff.2
      ⟨start, base, bs, ms, rest, hp, hl, hn, rfl⟩)⟩

theorem list_opened_eq_error_iff {data : ByteArray} {ms : List Member} :
    (∃ fault, list ⟨data, .opened ms⟩ = .error fault) ↔ ∃ m ∈ ms, m.path = "" := by
  have hany : (ms.any fun m => m.path.isEmpty) = true ↔ ∃ m ∈ ms, m.path = "" := by
    simp [List.any_eq_true, String.isEmpty_iff]
  have hlist : list ⟨data, .opened ms⟩ =
      if ms.any fun m => m.path.isEmpty then .error .emptyPath else .ok ms := rfl
  rw [← hany, hlist]
  cases (ms.any fun m => m.path.isEmpty) with
  | true => simp
  | false => simp

/-- An archive that has been opened is not listed only if a member has an empty path. -/
theorem list_eq_error_iff {data : ByteArray} :
    (∃ fault, (ofBytes data).enter.1 = .ok () ∧ (ofBytes data).enter.2.list = .error fault) ↔
      Nameless data := by
  have he : (∃ fault, (ofBytes data).enter.1 = .ok () ∧
      (ofBytes data).enter.2.list = .error fault) ↔
        ∃ ms, Directory.read data = .ok ms ∧ ∃ m ∈ ms, m.path = "" := by
    unfold enter ofBytes
    cases Directory.read data with
    | error fault => simp
    | ok ms => simp [list_opened_eq_error_iff]
  rw [he]
  constructor
  · intro h
    obtain ⟨_, hr, hm⟩ := h
    obtain ⟨start, base, bs, ms, hp, hl, rfl⟩ := Directory.read_eq_ok_iff.1 hr
    exact ⟨start, base, bs, ms, hp, hl, Directory.exists_nameless_withLimits.1 hm⟩
  · intro h
    obtain ⟨start, base, bs, ms, hp, hl, hm⟩ := h
    exact ⟨_, Directory.read_eq_ok_iff.2 ⟨start, base, bs, ms, hp, hl, rfl⟩,
      Directory.exists_nameless_withLimits.2 hm⟩

end Archive
end JarRank.Zip
