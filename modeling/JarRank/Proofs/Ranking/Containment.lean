import JarRank.Proofs.Zip.DirectoryWalk
import JarRank.Ranking.Run

/-!
# Faults of the container

An archive that cannot be opened has a report of its own, which rejects it. That is
so for every fault that says that the container is invalid. Two kinds of archives
are not opened or not listed for another reason, and then there is no report: a
directory that asks for a later version of the format, unless it is at fault before
that, and a directory that names a member with an empty path. There are no others.
-/
namespace JarRank

open Zip (AsksNewer Nameless)

/-- A fault of opening or of listing that does not say that the container is invalid. -/
inductive AnalysisFault.Escapes : AnalysisFault → Prop
  | version (needed : Nat) : Escapes (.opening (.version needed))
  | listing (fault : Zip.ListFault) : Escapes (.listing fault)

namespace Zip.Archive

/-- An archive is opened and listed, or its container is at fault, or neither. -/
theorem opened_or_container_or (data : ByteArray) :
    (∃ a ms, (ofBytes data).enter = (.ok (), a) ∧ a.list = .ok ms) ∨
      (∃ a fault, (ofBytes data).enter = (.error (.container fault), a)) ∨
        AsksNewer data ∨ Nameless data := by
  cases he : (ofBytes data).enter with
  | mk opened a =>
      cases opened with
      | error fault =>
          cases fault with
          | container fault => exact .inr (.inl ⟨a, fault, rfl⟩)
          | version needed =>
              have hv : (ofBytes data).enter.1 = .error (.version needed) := by rw [he]
              exact .inr (.inr (.inl (enter_eq_version_iff.1 ⟨needed, hv⟩)))
      | ok =>
          cases hl : a.list with
          | ok ms => exact .inl ⟨a, ms, rfl, hl⟩
          | error fault =>
              have ho : (ofBytes data).enter.1 = .ok () := by rw [he]
              have hf : (ofBytes data).enter.2.list = .error fault := by
                rw [he]
                exact hl
              exact .inr (.inr (.inr (list_eq_error_iff.1 ⟨fault, ho, hf⟩)))

end Zip.Archive

namespace Analysis

theorem ofBytes_of_not_opened (host : Host) (profile : Profile) {data : ByteArray}
    {fault : Zip.OpenFault}
    (h : (Zip.Archive.ofBytes data).enter.1 = .error fault) :
    ofBytes host profile data = ⟨.error (.opening fault), [], []⟩ := by
  unfold ofBytes
  cases he : (Zip.Archive.ofBytes data).enter with
  | mk opened a =>
      rw [he] at h
      dsimp only at h
      rw [h]

theorem ofBytes_of_not_listed (host : Host) (profile : Profile) {data : ByteArray}
    {fault : Zip.ListFault}
    (ho : (Zip.Archive.ofBytes data).enter.1 = .ok ())
    (hl : (Zip.Archive.ofBytes data).enter.2.list = .error fault) :
    ofBytes host profile data = ⟨.error (.listing fault), [], []⟩ := by
  unfold ofBytes
  cases he : (Zip.Archive.ofBytes data).enter with
  | mk opened a =>
      rw [he] at ho hl
      dsimp only at ho hl
      rw [ho]
      dsimp only
      rw [hl]

theorem result_of_not_opened (host : Host) (profile : Profile) {data : ByteArray} {fault : Zip.OpenFault}
    (h : (Zip.Archive.ofBytes data).enter.1 = .error fault) :
    (ofBytes host profile data).result = .error (.opening fault) := by
  rw [ofBytes_of_not_opened host profile h]

theorem result_of_not_listed (host : Host) (profile : Profile) {data : ByteArray} {fault : Zip.ListFault}
    (ho : (Zip.Archive.ofBytes data).enter.1 = .ok ())
    (hl : (Zip.Archive.ofBytes data).enter.2.list = .error fault) :
    (ofBytes host profile data).result = .error (.listing fault) := by
  rw [ofBytes_of_not_listed host profile ho hl]

theorem result_of_listed (host : Host) (profile : Profile) {data : ByteArray} {a : Zip.Archive}
    {ms : List Zip.Member} (ho : (Zip.Archive.ofBytes data).enter = (.ok (), a))
    (hl : a.list = .ok ms) :
    (ofBytes host profile data).result =
      (Aggregation.ofEntries host.clock profile
        (entries host.unpackers profile a ms)).result.mapError .reading := by
  unfold ofBytes
  rw [ho]
  dsimp only
  rw [hl]
  rfl

/-- An archive that has been listed gives no fault of opening or of listing. -/
theorem not_escapes_of_listed {host : Host} {profile : Profile} {data : ByteArray} {a : Zip.Archive}
    {ms : List Zip.Member} (h : (Zip.Archive.ofBytes data).enter = (.ok (), a))
    (hl : a.list = .ok ms) {fault : AnalysisFault}
    (hf : (ofBytes host profile data).result = .error fault) :
    ∃ obstacle, fault = .reading obstacle := by
  rw [result_of_listed host profile h hl] at hf
  cases hr : (Aggregation.ofEntries host.clock profile (entries host.unpackers profile a ms)).result with
  | ok r =>
      rw [hr] at hf
      cases hf
  | error obstacle =>
      rw [hr] at hf
      cases hf
      exact ⟨obstacle, rfl⟩

theorem result_escapes_iff (host : Host) (profile : Profile) (data : ByteArray) :
    (∃ fault, (ofBytes host profile data).result = .error fault ∧ fault.Escapes) ↔
      AsksNewer data ∨ Nameless data := by
  constructor
  · intro h
    obtain ⟨fault, hf, he⟩ := h
    rcases Zip.Archive.opened_or_container_or data with ⟨a, ms, ho, hl⟩ | ⟨a, flaw, hc⟩ | h
    · obtain ⟨obstacle, rfl⟩ := not_escapes_of_listed ho hl hf
      cases he
    · rw [result_of_not_opened host profile (congrArg Prod.fst hc)] at hf
      cases hf
      cases he
    · exact h
  · intro h
    rcases h with h | h
    · obtain ⟨needed, hv⟩ := Zip.Archive.enter_eq_version_iff.2 h
      exact ⟨_, result_of_not_opened host profile hv, .version needed⟩
    · obtain ⟨fault, ho, hl⟩ := Zip.Archive.list_eq_error_iff.2 h
      exact ⟨_, result_of_not_listed host profile ho hl, .listing fault⟩

end Analysis

namespace Run

variable {host : Host} {o : Order} {data : ByteArray}

theorem report_of_container {fault : Zip.ContainerFault}
    (h : (Analysis.ofBytes host o.profile data).result = .error (.opening (.container fault))) :
    (report host o data).1 = .ok (.rejected host.clock.now o.profile.id fault.message) := by
  unfold report
  dsimp only
  rw [h]

theorem report_of_not_container (h : ∀ fault, (Analysis.ofBytes host o.profile data).result ≠
    .error (.opening (.container fault))) :
    (report host o data).1 = (Analysis.ofBytes host o.profile data).result := by
  unfold report
  dsimp only
  split
  · next fault hf => exact (h fault hf).elim
  · rfl

/-- A run has a report on the container wherever the analysis says that it is invalid, and
stops where the analysis stops for another reason. -/
theorem report_escapes_iff :
    (∃ fault, (report host o data).1 = .error fault ∧ fault.Escapes) ↔
      ∃ fault, (Analysis.ofBytes host o.profile data).result = .error fault ∧ fault.Escapes := by
  constructor
  · intro h
    obtain ⟨fault, hf, he⟩ := h
    by_cases hc : ∃ flaw, (Analysis.ofBytes host o.profile data).result =
        .error (.opening (.container flaw))
    · obtain ⟨flaw, hc⟩ := hc
      rw [report_of_container hc] at hf
      cases hf
    · rw [report_of_not_container fun flaw h => hc ⟨flaw, h⟩] at hf
      exact ⟨fault, hf, he⟩
  · intro h
    obtain ⟨fault, hf, he⟩ := h
    refine ⟨fault, ?_, he⟩
    rw [report_of_not_container, hf]
    intro flaw hc
    rw [hf] at hc
    cases hc
    cases he

/-- Opening and listing an archive end otherwise than in a list or in a report on the container
exactly if it asks for a later version or names a member with an empty path; and then so does
the run. -/
theorem escapes_iff (host : Host) (o : Order) (data : ByteArray) :
    ((∃ fault, (Analysis.ofBytes host o.profile data).result = .error fault ∧ fault.Escapes) ↔
        AsksNewer data ∨ Nameless data) ∧
      ((∃ fault, (report host o data).1 = .error fault ∧ fault.Escapes) ↔
        AsksNewer data ∨ Nameless data) ∧
      (¬ (AsksNewer data ∨ Nameless data) →
        (∃ a ms, (Zip.Archive.ofBytes data).enter = (.ok (), a) ∧ a.list = .ok ms) ∨
          ∃ fault : Zip.ContainerFault,
            (Analysis.ofBytes host o.profile data).result = .error (.opening (.container fault)) ∧
              (report host o data).1 = .ok (.rejected host.clock.now o.profile.id fault.message)) := by
  refine ⟨Analysis.result_escapes_iff host o.profile data, ?_, ?_⟩
  · rw [report_escapes_iff, Analysis.result_escapes_iff]
  · intro hn
    rcases Zip.Archive.opened_or_container_or data with h | ⟨a, fault, hc⟩ | h
    · exact .inl h
    · have hr := Analysis.result_of_not_opened host o.profile (congrArg Prod.fst hc)
      exact .inr ⟨fault, hr, report_of_container hr⟩
    · exact (hn h).elim

/-- An archive whose only member has no name and asks for a version. -/
def oneMember (version : UInt8) : ByteArray :=
  ⟨#[0x50, 0x4B, 1, 2, 20, 0, version, 0, 0, 0, 0, 0, 0, 0, 0, 0, 0, 0, 0, 0, 0, 0, 0,
    0, 0, 0, 0, 0, 0, 0, 0, 0, 0, 0, 0, 0, 0, 0, 0, 0, 0, 0, 0, 0, 0, 0,
    0x50, 0x4B, 5, 6, 0, 0, 0, 0, 1, 0, 1, 0, 46, 0, 0, 0, 0, 0, 0, 0, 0, 0]⟩

theorem oneMember_escapes :
    (Analysis.ofBytes .bare .standard (oneMember 64)).result = .error (.opening (.version 64)) ∧
      (Analysis.ofBytes .bare .standard (oneMember 20)).result = .error (.listing .emptyPath) ∧
      ¬ ((∃ a ms, (Zip.Archive.ofBytes (oneMember 64)).enter = (.ok (), a) ∧ a.list = .ok ms) ∨
        ∃ fault, (Analysis.ofBytes .bare .standard (oneMember 64)).result =
          .error (.opening (.container fault))) ∧
      (report .bare ⟨"lib.jar", .standard, none, none⟩ (oneMember 64)).1 =
        .error (.opening (.version 64)) := by
  have hv : (Zip.Archive.ofBytes (oneMember 64)).enter.1 = .error (.version 64) := by
    decide +kernel
  have ho : (Zip.Archive.ofBytes (oneMember 20)).enter.1 = .ok () := by decide +kernel
  have hl : (Zip.Archive.ofBytes (oneMember 20)).enter.2.list = .error .emptyPath := by
    decide +kernel
  have hr := Analysis.result_of_not_opened .bare .standard hv
  refine ⟨hr, Analysis.result_of_not_listed .bare .standard ho hl, ?_, ?_⟩
  · intro h
    rcases h with ⟨a, ms, he, _⟩ | ⟨fault, hf⟩
    · rw [he] at hv
      cases hv
    · rw [hr] at hf
      cases hf
  · rw [report_of_not_container, hr]
    intro fault hf
    rw [hr] at hf
    cases hf

end Run
end JarRank
