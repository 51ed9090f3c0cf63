import JarRank.Proofs.Zip.DirectoryWalk

/-!
# What reading a member may meet

Whatever is wrong with the bytes of a member or with its description in the
directory is a fault of that member, with four exceptions: the member is said to
begin in front of the archive, or at a place that is no 64-bit number, or its own
header stands where it should and has a name that is said to be UTF-8 and is not,
or it is packed in one of the two ways that belong to libraries, and the library
complains about its bytes. Nothing else is met while an archive is open.
-/
namespace JarRank.Zip

namespace Member

variable {u : Unpackers} {data : ByteArray} {m : Member}

/-- A whole header with its signature stands at the place of a member, whose flags do not keep it
from being read any further. -/
structure HasHeader (data : ByteArray) (m : Member) (start : Nat) : Prop where
  offset : m.offset = start
  reach : m.offset < offsetLimit
  whole : (window data start headerSize).length = headerSize
  signed : (window data start headerSize).take 4 = signature
  notPatched : m.hasFlag 0x20 = false
  notStrong : m.hasFlag 0x40 = false

/-- The flags in the header at a place. -/
def ownFlags (data : ByteArray) (start : Nat) : Nat := field (window data start headerSize) 6 2

/-- The name behind the header at a place. -/
def ownName (data : ByteArray) (start : Nat) : Bytes :=
  window data (start + headerSize) (field (window data start headerSize) 26 2)

/-- What keeps a member from being found that is more than a fault of the member. -/
inductive Misplaced (data : ByteArray) (m : Member) : Obstacle → Prop
  | negative : -offsetLimit ≤ m.offset → m.offset < 0 → Misplaced data m (.negativeOffset m.offset)
  | huge : m.offset < -offsetLimit ∨ offsetLimit ≤ m.offset → Misplaced data m .hugeOffset
  | name {start : Nat} {flaw : Utf8.Flaw} : m.HasHeader data start →
      Directory.isUtf8 (ownFlags data start) = true →
        Utf8.decode (ownName data start) = .error flaw → Misplaced data m (.nameEncoding flaw)

/-- Packed by bzip2 or by LZMA. The bytes of such members are unpacked by libraries. -/
def PackedOtherwise (m : Member) : Prop := m.method = 12 ∨ m.method = 14

/-- What reading a member meets that is more than a fault of the member. -/
inductive Meets (u : Unpackers) (data : ByteArray) (m : Member) : Obstacle → Prop
  | misplaced {obstacle : Obstacle} : m.Misplaced data obstacle → Meets u data m obstacle
  /-- The library that undoes the packing is there and complains. -/
  | damaged {start : Nat} {packing : Packing} {unpack : Bytes → Unpacked} {message : String} :
      m.payloadStart data = .ok start → Packing.ofMethod? m.method = some packing →
      u.find? packing = some unpack →
      ¬ (m.isCut (window data start m.packedSize) ∧ (window data start m.packedSize).isEmpty) →
      unpack (window data start m.packedSize) = .damaged message →
      Meets u data m (.damaged packing message)

theorem packedOtherwise_iff :
    m.PackedOtherwise ↔ ∃ packing, Packing.ofMethod? m.method = some packing := by
  unfold PackedOtherwise Packing.ofMethod?
  constructor
  · intro h
    rcases h with h | h <;> simp [h]
  · intro h
    rcases h with ⟨packing, h⟩
    split at h
    · next h12 => exact .inl h12
    · split at h
      · next h14 => exact .inr h14
      · cases h

/-- A member that is stored or deflated meets no complaint of a library. -/
theorem meets_iff_misplaced (h : ¬ m.PackedOtherwise) {obstacle : Obstacle} :
    m.Meets u data obstacle ↔ m.Misplaced data obstacle := by
  constructor
  · intro hm
    cases hm with
    | misplaced hm => exact hm
    | damaged _ hp _ _ _ => exact (h (packedOtherwise_iff.2 ⟨_, hp⟩)).elim
  · exact .misplaced

theorem place_eq_ok_iff {start : Nat} :
    m.place = .ok start ↔ m.offset = start ∧ m.offset < offsetLimit := by
  unfold place offsetLimit
  split
  · simp only [reduceCtorEq, false_iff]
    omega
  · split
    · simp only [reduceCtorEq, false_iff]
      omega
    · simp only [Except.ok.injEq]
      omega

theorem place_eq_error_iff {obstacle : Obstacle} :
    m.place = .error obstacle ↔
      (obstacle = .hugeOffset ∧ (m.offset < -offsetLimit ∨ offsetLimit ≤ m.offset)) ∨
        (obstacle = .negativeOffset m.offset ∧ -offsetLimit ≤ m.offset ∧ m.offset < 0) := by
  unfold place
  have hpos : (0 : Int) < offsetLimit := by decide
  split
  · next h =>
      have hn : ¬ (-offsetLimit ≤ m.offset ∧ m.offset < 0) := by omega
      simp only [Except.error.injEq, h, and_true, hn, and_false, or_false, eq_comm]
  · next h =>
      split
      · next hneg =>
          have hlow : -offsetLimit ≤ m.offset := by omega
          simp only [Except.error.injEq, h, and_false, false_or, hlow, hneg, and_true, eq_comm]
      · next hneg => simp only [reduceCtorEq, h, and_false, false_or, hneg]

/-- A header that is cut off, is none, or belongs to a member that is not read any further is a
fault of the member. -/
theorem payloadStart_of_not_hasHeader {start : Nat} (hp : m.place = .ok start)
    (h : ¬ m.HasHeader data start) : ∃ fault, m.payloadStart data = .error (.member fault) := by
  obtain ⟨ho, hr⟩ := place_eq_ok_iff.1 hp
  unfold payloadStart
  rw [hp]
  simp only [Except.mapError_ok, bind, Except.bind]
  split
  · exact ⟨_, rfl⟩
  · next hw =>
      split
      · exact ⟨_, rfl⟩
      · next hs =>
          split
          · exact ⟨_, rfl⟩
          · next hf =>
              split
              · exact ⟨_, rfl⟩
              · next hg =>
                  exact (h ⟨ho, hr, not_not.1 hw, not_not.1 hs, Bool.eq_false_iff.2 hf,
                    Bool.eq_false_iff.2 hg⟩).elim

theorem payloadStart_of_hasHeader {start : Nat} (h : m.HasHeader data start) :
    m.payloadStart data =
      match Directory.decodeName (ownFlags data start) (ownName data start) with
      | .error flaw => .error (.obstacle (.nameEncoding flaw))
      | .ok name =>
          let payload := min data.size (start + headerSize +
            field (window data start headerSize) 26 2 + field (window data start headerSize) 28 2)
          if name ≠ m.name then .error (.member (.nameDiffers m.name (ownName data start)))
          else if m.limit < payload + m.packedSize then .error (.member (.overlapped m.name))
          else if m.hasFlag 1 then .error (.member (.encrypted m.description))
          else .ok payload := by
  have hp : m.place = .ok start := place_eq_ok_iff.2 ⟨h.offset, h.reach⟩
  unfold payloadStart
  rw [hp]
  simp only [Except.mapError_ok, bind, Except.bind, h.whole, h.signed, h.notPatched, h.notStrong,
    ne_eq, not_true_eq_false, if_false, Bool.false_eq_true]
  cases hd : Directory.decodeName (ownFlags data start) (ownName data start) <;>
    simp only [ownFlags, ownName] at hd <;> rw [hd] <;> rfl

theorem decodeName_eq_error_iff {flags : Nat} {raw : Bytes} {flaw : Utf8.Flaw} :
    Directory.decodeName flags raw = .error flaw ↔
      Directory.isUtf8 flags = true ∧ Utf8.decode raw = .error flaw := by
  unfold Directory.decodeName
  split
  · next h => simp [h]
  · next h => simp [h]

theorem payloadStart_eq_obstacle_iff {obstacle : Obstacle} :
    m.payloadStart data = .error (.obstacle obstacle) ↔ m.Misplaced data obstacle := by
  cases hp : m.place with
  | error first =>
      have hs : m.payloadStart data = .error (.obstacle first) := by
        unfold payloadStart
        rw [hp]
        rfl
      rw [hs, Except.error.injEq, ReadFault.obstacle.injEq]
      constructor
      · rintro rfl
        rcases place_eq_error_iff.1 hp with ⟨rfl, h⟩ | ⟨rfl, h⟩
        · exact .huge h
        · exact .negative h.1 h.2
      · intro h
        rcases h with ⟨hlow, hneg⟩ | hhuge | ⟨hh, -, -⟩
        · exact Except.error.inj (hp.symm.trans (place_eq_error_iff.2 (.inr ⟨rfl, hlow, hneg⟩)))
        · exact Except.error.inj (hp.symm.trans (place_eq_error_iff.2 (.inl ⟨rfl, hhuge⟩)))
        · rw [place_eq_ok_iff.2 ⟨hh.offset, hh.reach⟩] at hp
          cases hp
  | ok start =>
      obtain ⟨ho, hr⟩ := place_eq_ok_iff.1 hp
      constructor
      · intro h
        by_cases hh : m.HasHeader data start
        · rw [payloadStart_of_hasHeader hh] at h
          split at h
          · next flaw hd =>
              cases h
              obtain ⟨hu, hd⟩ := decodeName_eq_error_iff.1 hd
              exact .name hh hu hd
          · dsimp only at h
            split_ifs at h
            all_goals cases h
        · obtain ⟨fault, hf⟩ := payloadStart_of_not_hasHeader hp hh
          rw [hf] at h
          cases h
      · intro h
        cases h with
        | negative hlow hneg => omega
        | huge hhuge =>
            have hpos : (0 : Int) < offsetLimit := by decide
            omega
        | @name start' flaw hh hu hd =>
            rw [payloadStart_of_hasHeader hh, decodeName_eq_error_iff.2 ⟨hu, hd⟩]

theorem cutToSize_eq_error {packed : Bytes} {out : ByteArray} {ended : Bool} {fault : ReadFault}
    (h : (m.cutToSize packed out ended).mapError ReadFault.member = .error fault) :
    fault = .member .endOfData := by
  unfold cutToSize at h
  split at h
  · cases h
    rfl
  · cases h

/-- Behind the header only a library has more to complain about than the member. -/
theorem unpack_eq_obstacle_iff {method : Method} {packed : Bytes} {obstacle : Obstacle} :
    m.unpack method packed = .error (.obstacle obstacle) ↔
      ¬ (m.isCut packed ∧ packed.isEmpty) ∧ ∃ packing unpack message,
        method = .packed packing unpack ∧ unpack packed = .damaged message ∧
          obstacle = .damaged packing message := by
  unfold unpack
  by_cases hcut : m.isCut packed ∧ packed.isEmpty
  · rw [if_pos hcut]
    simp [hcut]
  rw [if_neg hcut]
  have hsize : ∀ (out : ByteArray) (ended : Bool),
      (m.cutToSize packed out ended).mapError ReadFault.member ≠ .error (.obstacle obstacle) := by
    intro out ended h
    cases cutToSize_eq_error h
  cases method with
  | stored => simp [hsize]
  | deflated =>
      rcases Deflate.inflate packed with ⟨out, fault | _ | _⟩ <;> simp [hsize]
  | packed packing unpack =>
      cases hu : unpack packed with
      | damaged message =>
          simp only [hu]
          constructor
          · intro h
            cases h
            exact ⟨hcut, packing, unpack, message, rfl, hu, rfl⟩
          · rintro ⟨-, _, _, _, hmethod, hdamaged, rfl⟩
            cases hmethod
            cases hu.symm.trans hdamaged
            rfl
      | content out ended => simp [hsize, hu]

theorem unpacking_eq_packed_iff {packing : Packing} {unpack : Bytes → Unpacked} :
    m.unpacking u = .ok (.packed packing unpack) ↔
      Packing.ofMethod? m.method = some packing ∧ u.find? packing = some unpack := by
  unfold unpacking
  constructor
  · intro h
    split at h
    · cases h
    split at h
    · cases h
    split at h
    · cases h
    next hp =>
      split at h
      · next hf =>
          cases h
          exact ⟨hp, hf⟩
      · cases h
  · intro h
    have h0 : m.method ≠ 0 := by
      intro h0
      rw [h0] at h
      cases h.1
    have h8 : m.method ≠ 8 := by
      intro h8
      rw [h8] at h
      cases h.1
    rw [if_neg h0, if_neg h8, h.1]
    dsimp only
    rw [h.2]

/-- Reading a member meets an obstacle where it cannot be found or a library complains, and nowhere
else. -/
theorem read_eq_obstacle_iff {obstacle : Obstacle} :
    m.read u data = .error (.obstacle obstacle) ↔ m.Meets u data obstacle := by
  constructor
  · intro h
    rcases Except.bind_eq_error_iff.1 h with h | ⟨start, hstart, h⟩
    · exact .misplaced (payloadStart_eq_obstacle_iff.1 h)
    rcases Except.bind_eq_error_iff.1 h with h | ⟨method, hmethod, h⟩
    · cases hm : m.unpacking u <;> rw [hm] at h <;> cases h
    rcases Except.bind_eq_error_iff.1 h with h | ⟨content, _, h⟩
    · rcases unpack_eq_obstacle_iff.1 h with ⟨hcut, packing, unpack, message, rfl, hu, rfl⟩
      obtain ⟨hp, hf⟩ := unpacking_eq_packed_iff.1 (Except.mapError_eq_ok_iff.1 hmethod)
      exact .damaged hstart hp hf hcut hu
    · split at h <;> cases h
  · intro h
    cases h with
    | misplaced h =>
        rw [read, payloadStart_eq_obstacle_iff.2 h]
        rfl
    | @damaged start packing unpack message hstart hp hf hcut hu =>
        have hunpack : m.unpack (.packed packing unpack) (window data start m.packedSize) =
            .error (.obstacle (.damaged packing message)) :=
          unpack_eq_obstacle_iff.2 ⟨hcut, packing, unpack, message, rfl, hu, rfl⟩
        rw [read, hstart, unpacking_eq_packed_iff.2 ⟨hp, hf⟩]
        simp only [bind, Except.bind, Except.mapError_ok, hunpack]

theorem read_eq_ok_iff {content : ByteArray} :
    m.read u data = .ok content ↔ ∃ start method, m.payloadStart data = .ok start ∧
      m.unpacking u = .ok method ∧ m.unpack method (window data start m.packedSize) = .ok content ∧
        (Checksum.crc32 content).toNat = m.checksum := by
  unfold read
  rw [Except.bind_eq_ok_iff]
  refine exists_congr fun start => ?_
  rw [exists_and_left]
  refine and_congr_right fun _ => ?_
  rw [Except.bind_eq_ok_iff]
  refine exists_congr fun method => ?_
  rw [Except.mapError_eq_ok_iff]
  refine and_congr_right fun _ => ?_
  rw [Except.bind_eq_ok_iff]
  constructor
  · intro h
    obtain ⟨unpacked, hu, h⟩ := h
    split at h
    · next hc =>
      cases h
      exact ⟨hu, hc⟩
    · cases h
  · intro h
    refine ⟨content, h.1, ?_⟩
    rw [if_pos h.2]
    rfl

end Member

namespace Archive

variable {data : ByteArray} {a : Archive}

theorem enter_eq_ok_iff : (ofBytes data).enter = (.ok (), a) ↔
    ∃ ms, Directory.read data = .ok ms ∧ a = ⟨data, .opened ms⟩ := by
  unfold enter ofBytes
  cases Directory.read data with
  | error fault => simp
  | ok ms => simp [eq_comm]

theorem read_of_entered (h : (ofBytes data).enter = (.ok (), a)) (u : Unpackers) (m : Member) :
    a.read u m = m.read u data := by
  obtain ⟨ms, -, rfl⟩ := enter_eq_ok_iff.1 h
  rfl

/-- Reading a member of an open archive gives bytes or a fault of the member, or it meets what
keeps more than this member from being read. -/
theorem read_of_not_meets (h : (ofBytes data).enter = (.ok (), a)) {u : Unpackers} {m : Member}
    (hm : ¬ ∃ obstacle, m.Meets u data obstacle) :
    (∃ content, a.read u m = .ok content) ∨ ∃ fault, a.read u m = .error (.member fault) := by
  rw [read_of_entered h]
  cases hr : m.read u data with
  | ok content => exact .inl ⟨content, rfl⟩
  | error fault =>
      cases fault with
      | member fault => exact .inr ⟨fault, rfl⟩
      | obstacle obstacle => exact (hm ⟨obstacle, Member.read_eq_obstacle_iff.1 hr⟩).elim

end Archive
end JarRank.Zip
