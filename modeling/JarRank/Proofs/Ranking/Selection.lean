import JarRank.Proofs.Ranking.Clocks
import JarRank.Proofs.Ranking.MemberFaults

/-!
# Members that are not selected

An analysis examines the members that its profile matches, each once and in the order of
the directory, and everything that comes of it is put together from the paths of these
members and from what reading them gives. Members with one name are members of their own.
Whatever else is listed may be left out, added, moved or damaged: it is never read. Reading
a member in turn looks at the bytes from its own header to the end of its packed bytes and
at no others. Two analyses at different times come to the same but for what their clocks tell.
-/
namespace JarRank
namespace Zip

theorem window_add (data : ByteArray) (start i : Nat) {n length : Nat} (h : i + n ≤ length) :
    window data (start + i) n = ((window data start length).drop i).take n := by
  have hmin : min n (length - i) = n := by omega
  rw [window_eq, window_eq, List.drop_take, List.take_take, List.drop_drop, hmin]

namespace Member

variable {data data' : ByteArray} {m : Member}

/-- How many bytes the own header of a member, its name and fields and its packed bytes take. -/
def extent (data : ByteArray) (m : Member) : Nat :=
  headerSize + field (window data m.offset.toNat headerSize) 26 2 +
    field (window data m.offset.toNat headerSize) 28 2 + m.packedSize

/-- The bytes of a member stand in another archive where they stand in this one. -/
structure Stays (data data' : ByteArray) (m : Member) : Prop where
  size : data'.size = data.size
  bytes : window data' m.offset.toNat (m.extent data) = window data m.offset.toNat (m.extent data)

namespace Stays

/-- Whatever stands within the extent of the member stands in both archives. -/
theorem window_eq (h : Stays data data' m) (i : Nat) {n : Nat} (hn : i + n ≤ m.extent data) :
    window data' (m.offset.toNat + i) n = window data (m.offset.toNat + i) n := by
  rw [window_add data' _ i hn, window_add data _ i hn, h.bytes]

theorem header_eq (h : Stays data data' m) :
    window data' m.offset.toNat headerSize = window data m.offset.toNat headerSize := by
  have hn : 0 + headerSize ≤ m.extent data := by
    unfold extent
    omega
  exact h.window_eq 0 hn

theorem payloadStart_eq (h : Stays data data' m) :
    m.payloadStart data' = m.payloadStart data := by
  unfold payloadStart
  cases hp : m.place with
  | error obstacle => rfl
  | ok start =>
      have hstart : start = m.offset.toNat := by
        have ho := (place_eq_ok_iff.1 hp).1
        omega
      have hname : window data' (m.offset.toNat + headerSize)
            (field (window data m.offset.toNat headerSize) 26 2) =
          window data (m.offset.toNat + headerSize)
            (field (window data m.offset.toNat headerSize) 26 2) := by
        apply h.window_eq
        unfold extent
        omega
      simp only [Except.mapError_ok, bind, Except.bind, hstart, h.header_eq, hname, h.size]

end Stays

/-- The packed bytes begin behind the own header with its name and fields, or at the end of the
archive where that comes first. -/
theorem payloadStart_eq_ok {start : Nat} (h : m.payloadStart data = .ok start) :
    start = min data.size (m.offset.toNat + headerSize +
      field (window data m.offset.toNat headerSize) 26 2 +
        field (window data m.offset.toNat headerSize) 28 2) := by
  cases hp : m.place with
  | error obstacle =>
      unfold payloadStart at h
      rw [hp] at h
      cases h
  | ok place =>
      have hheader : m.HasHeader data place := by
        by_contra hn
        obtain ⟨fault, hf⟩ := payloadStart_of_not_hasHeader hp hn
        rw [hf] at h
        cases h
      have hplace : place = m.offset.toNat := by
        have ho := hheader.offset
        omega
      rw [payloadStart_of_hasHeader hheader, hplace] at h
      split at h
      · cases h
      · dsimp only at h
        split_ifs at h
        exact (Except.ok.inj h).symm

/-- Reading a member looks at the extent of the member alone. -/
theorem Stays.read_eq (h : Stays data data' m) (u : Unpackers) : m.read u data' = m.read u data := by
  unfold read
  rw [h.payloadStart_eq]
  cases hp : m.payloadStart data with
  | error fault => rfl
  | ok start =>
      have hpacked : window data' start m.packedSize = window data start m.packedSize := by
        have hstart := payloadStart_eq_ok hp
        by_cases hend : data.size ≤ start
        · have hend' : data'.size ≤ start := h.size ▸ hend
          rw [window, window, if_pos hend, if_pos hend']
        · have hextent : start - m.offset.toNat + m.packedSize ≤ m.extent data := by
            unfold extent
            omega
          have hbytes := h.window_eq (start - m.offset.toNat) hextent
          have hsum : m.offset.toNat + (start - m.offset.toNat) = start := by omega
          rwa [hsum] at hbytes
      simp only [bind, Except.bind, hpacked]

end Member
end Zip

namespace Analysis

variable {u : Zip.Unpackers} {profile : Profile} {data data' : ByteArray} {a a' : Zip.Archive}
  {ms ms' : List Zip.Member}

/-- A member is no directory, and its path ends as those of class files do. -/
def Matches (profile : Profile) (m : Zip.Member) : Prop :=
  m.isDirectory = false ∧ profile.classSuffix.toList <:+ m.path.toList

theorem selects_iff {m : Zip.Member} :
    profile.selects m.path m.isDirectory = true ↔ Matches profile m := by
  simp [Profile.selects, Matches]

/-- Two listings show the same matching members with the same content in the same order, and
besides them whatever they like. -/
inductive Alike (u : Zip.Unpackers) (profile : Profile) (a a' : Zip.Archive) :
    List Zip.Member → List Zip.Member → Prop
  | nil : Alike u profile a a' [] []
  | both {m m' : Zip.Member} {ms ms' : List Zip.Member} : Matches profile m → Matches profile m' →
      entry u a m = entry u a' m' → Alike u profile a a' ms ms' →
        Alike u profile a a' (m :: ms) (m' :: ms')
  | left {m : Zip.Member} {ms ms' : List Zip.Member} : ¬ Matches profile m →
      Alike u profile a a' ms ms' → Alike u profile a a' (m :: ms) ms'
  | right {m' : Zip.Member} {ms ms' : List Zip.Member} : ¬ Matches profile m' →
      Alike u profile a a' ms ms' → Alike u profile a a' ms (m' :: ms')

theorem selected_cons_of_matches {m : Zip.Member} (h : Matches profile m) :
    selected profile (m :: ms) = m :: selected profile ms :=
  List.filter_cons_of_pos (selects_iff.2 h)

theorem selected_cons_of_not_matches {m : Zip.Member} (h : ¬ Matches profile m) :
    selected profile (m :: ms) = selected profile ms :=
  List.filter_cons_of_neg fun hs => h (selects_iff.1 hs)

theorem Alike.entries_eq (h : Alike u profile a a' ms ms') :
    (selected profile ms).map (entry u a) = (selected profile ms').map (entry u a') := by
  induction h with
  | nil => rfl
  | both hm hm' he _ ih =>
      rw [selected_cons_of_matches hm, selected_cons_of_matches hm', List.map_cons, List.map_cons,
        he, ih]
  | left hm _ ih => rw [selected_cons_of_not_matches hm, ih]
  | right hm' _ ih => rw [selected_cons_of_not_matches hm', ih]

/-- Every two listings whose matching members are the same are alike. -/
theorem alike_of_entries_eq
    (h : (selected profile ms).map (entry u a) = (selected profile ms').map (entry u a')) :
    Alike u profile a a' ms ms' := by
  induction ms generalizing ms' with
  | nil =>
      -- Nothing is to be matched, so that the other listing has members of the other kind alone.
      induction ms' with
      | nil => exact .nil
      | cons m' ms' ih =>
          by_cases hm' : Matches profile m'
          · rw [selected_cons_of_matches hm'] at h
            cases h
          · rw [selected_cons_of_not_matches hm'] at h
            exact .right hm' (ih h)
  | cons m ms ih =>
      by_cases hm : Matches profile m
      · rw [selected_cons_of_matches hm] at h
        induction ms' with
        | nil => cases h
        | cons m' ms' ih' =>
            by_cases hm' : Matches profile m'
            · rw [selected_cons_of_matches hm', List.map_cons, List.map_cons] at h
              obtain ⟨he, h⟩ := List.cons.inj h
              exact .both hm hm' he (ih h)
            · rw [selected_cons_of_not_matches hm'] at h
              exact .right hm' (ih' h)
      · rw [selected_cons_of_not_matches hm] at h
        exact .left hm (ih h)

theorem alike_iff : Alike u profile a a' ms ms' ↔
    (selected profile ms).map (entry u a) = (selected profile ms').map (entry u a') :=
  ⟨Alike.entries_eq, alike_of_entries_eq⟩

/-- An analysis is that of the entries which the matching members of the listing are. -/
theorem ofBytes_of_listed (host : Host) (profile : Profile)
    (ho : (Zip.Archive.ofBytes data).enter = (.ok (), a)) (hl : a.list = .ok ms) :
    ofBytes host profile data =
      ofEntries host.clock profile ((selected profile ms).map (entry host.unpackers a)) := by
  unfold ofBytes
  rw [ho]
  dsimp only
  rw [hl, ← entries_eq]

/-- Members that stay where they are have the same content in both archives. -/
theorem alike_of_stays (ho : (Zip.Archive.ofBytes data).enter = (.ok (), a))
    (ho' : (Zip.Archive.ofBytes data').enter = (.ok (), a'))
    (h : ∀ m ∈ ms, Matches profile m → m.Stays data data') : Alike u profile a a' ms ms := by
  induction ms with
  | nil => exact .nil
  | cons m ms ih =>
      have hrest := ih fun n hn => h n (List.mem_cons_of_mem m hn)
      by_cases hm : Matches profile m
      · have hread : a'.read u m = a.read u m := by
          rw [Zip.Archive.read_of_entered ho, Zip.Archive.read_of_entered ho',
            (h m List.mem_cons_self hm).read_eq u]
        have hentry : entry u a m = entry u a' m := by rw [entry, entry, hread]
        exact .both hm hm hentry hrest
      · exact .left hm (.right hm hrest)

/-- What comes of an archive that is listed, with its progress, is what comes of its matching
members in their order, each with its own path and content. So it is the same for two archives
whose matching members give the same, at another time but for what the clock tells, and they do if
members that do not match have been put in, left out, moved or changed, and in no other case. Where
the directory is the same, any bytes but those of the matching members may be others. -/
theorem ofBytes_determined (host : Host) (profile : Profile)
    (ho : (Zip.Archive.ofBytes data).enter = (.ok (), a)) (hl : a.list = .ok ms)
    (ho' : (Zip.Archive.ofBytes data').enter = (.ok (), a')) (hl' : a'.list = .ok ms') :
    ((selected profile ms).map (entry host.unpackers a) =
          (selected profile ms').map (entry host.unpackers a') →
        ofBytes host profile data = ofBytes host profile data' ∧
          ∀ clock, (ofBytes host profile data).result.map Report.untimed =
              (ofBytes ⟨host.unpackers, clock⟩ profile data').result.map Report.untimed ∧
            (ofBytes host profile data).progress =
              (ofBytes ⟨host.unpackers, clock⟩ profile data').progress) ∧
      (Alike host.unpackers profile a a' ms ms' ↔
        (selected profile ms).map (entry host.unpackers a) =
          (selected profile ms').map (entry host.unpackers a')) ∧
      (ms' = ms → (∀ m ∈ ms, Matches profile m → m.Stays data data') →
        ofBytes host profile data = ofBytes host profile data') ∧
      (∀ m, m ∈ selected profile ms ↔ m ∈ ms ∧ Matches profile m) ∧
      (∀ m, entry host.unpackers a m =
        ⟨m.path, (m.read host.unpackers data).mapError .ofFault⟩) ∧
      (ofBytes host profile data).result = (Aggregation.ofEntries host.clock profile
        ((selected profile ms).map (entry host.unpackers a))).result.mapError .reading ∧
      (ofBytes host profile data).progress = (Aggregation.ofEntries host.clock profile
        ((selected profile ms).map (entry host.unpackers a))).progress ∧
      ∀ r, (ofBytes host profile data).result = .ok r →
        r.Covers profile ((selected profile ms).map (entry host.unpackers a)) := by
  have hdata := ofBytes_of_listed host profile ho hl
  have heq : (selected profile ms).map (entry host.unpackers a) =
        (selected profile ms').map (entry host.unpackers a') →
      ofBytes host profile data = ofBytes host profile data' := by
    intro h
    rw [hdata, ofBytes_of_listed host profile ho' hl', h]
  have hresult : (ofBytes host profile data).result = (Aggregation.ofEntries host.clock profile
      ((selected profile ms).map (entry host.unpackers a))).result.mapError .reading := by
    rw [hdata]
    rfl
  refine ⟨fun h => ⟨heq h, fun clock => ?_⟩, alike_iff, fun hms h => heq ?_, fun m => ?_,
    fun m => ?_, hresult, ?_, fun r hr => ?_⟩
  · rw [heq h]
    exact untimed_ofBytes host.unpackers host.clock clock profile data'
  · rw [hms]
    exact (alike_of_stays ho ho' h).entries_eq
  · rw [selected, List.mem_filter, selects_iff]
  · rw [entry, Zip.Archive.read_of_entered ho]
  · rw [hdata]
    rfl
  · rw [hresult] at hr
    exact Aggregation.covers_of_result (Except.mapError_eq_ok_iff.1 hr)

/-- A profile that matches `A.class` and not `B.class`. -/
def firstOnly : Profile := { classSuffix := "A.class" }

theorem stays_firstMember : firstMember.Stays (twoMembers 0x43) (twoMembers 0xFF) := by
  have hextent : firstMember.extent (twoMembers 0x43) = 76 := by decide +kernel
  refine ⟨by decide +kernel, ?_⟩
  rw [hextent, Zip.window_eq, Zip.window_eq]
  decide +kernel

theorem matches_firstMember : Matches firstOnly firstMember ∧ ¬ Matches firstOnly secondMember := by
  rw [← selects_iff, ← selects_iff]
  decide +kernel

/-- The second member is damaged in one of two archives so that nothing is reported where it is
examined. Where it does not match, both have the same report, on one class file. -/
theorem ofBytes_determined_firstOnly :
    Alike .none firstOnly (openedWith 0x43) (openedWith 0xFF) bothMembers bothMembers ∧
      ofBytes .bare firstOnly (twoMembers 0x43) = ofBytes .bare firstOnly (twoMembers 0xFF) ∧
      ∃ r, (ofBytes .bare firstOnly (twoMembers 0xFF)).result = .ok r ∧ r.stats.entriesScanned = 1 ∧
        r.methods = [⟨"A", "A", "A", 0⟩] := by
  have ho := enter_twoMembers 0x43 (by decide +kernel)
  have ho' := enter_twoMembers 0xFF (by decide +kernel)
  obtain ⟨hmatches, hother⟩ := matches_firstMember
  have hselected : selected firstOnly bothMembers = [firstMember] := by
    rw [bothMembers, selected_cons_of_matches hmatches, selected_cons_of_not_matches hother]
    rfl
  have hstays : ∀ m ∈ bothMembers, Matches firstOnly m →
      m.Stays (twoMembers 0x43) (twoMembers 0xFF) := by
    intro m hm hmm
    rcases List.mem_pair.1 hm with rfl | rfl
    · exact stays_firstMember
    · exact (hother hmm).elim
  have halike : Alike .none firstOnly (openedWith 0x43) (openedWith 0xFF) bothMembers bothMembers :=
    alike_of_stays ho ho' hstays
  have hcontent := content_of_read (read_firstMember Host.bare.unpackers)
  obtain ⟨hsame, halikeIff, hstaysSame, -, -, hresult, -, hcovers⟩ := ofBytes_determined .bare firstOnly
    ho (list_openedWith 0x43) ho' (list_openedWith 0xFF)
  have hcontained : ∀ e ∈ [entry Host.bare.unpackers (openedWith 0x43) firstMember], e.Contained := by
    intro e he
    rw [List.mem_singleton.1 he]
    exact Entry.Ordinary.contained (.inl ⟨_, hcontent⟩)
  obtain ⟨r, hr, -⟩ := Aggregation.exists_covers Host.bare.clock firstOnly hcontained
  have hfirst : (ofBytes .bare firstOnly (twoMembers 0x43)).result = .ok r := by
    rw [hresult, hselected, List.map_singleton, hr]
    rfl
  have hc := hcovers r hfirst
  rw [hselected, List.map_singleton] at hc
  have hrows : (entry Host.bare.unpackers (openedWith 0x43) firstMember).rows "Code" =
      [⟨"A", "A", "A", 0⟩] :=
    Entry.rows_of_decoded hcontent decode_bareClass
  refine ⟨halike, (hsame (halikeIff.1 halike)).1, r, ?_, hc.entriesScanned, ?_⟩
  · rw [← hstaysSame rfl hstays, hfirst]
  · rw [hc.methods, List.flatMap_singleton, show firstOnly.codeAttribute = "Code" from rfl, hrows]
    exact List.mergeSort_singleton _

end Analysis
end JarRank
