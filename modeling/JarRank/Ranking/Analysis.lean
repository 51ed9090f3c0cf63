import JarRank.Ranking.Aggregation
import JarRank.Zip.Archive

/-!
# From archives to reports

An archive is opened, its members are listed, and those that the profile selects
are examined in the order of the directory.
-/
namespace JarRank

inductive AnalysisFault where
  | opening (fault : Zip.OpenFault)
  | listing (fault : Zip.ListFault)
  | reading (obstacle : Zip.Obstacle)
  deriving DecidableEq, Repr

def AnalysisFault.message : AnalysisFault → String
  | opening fault => fault.message
  | listing fault => fault.message
  | reading obstacle => obstacle.message

structure Analysis where
  result : Except AnalysisFault Report
  /-- How many of how many class files have been examined, after each. -/
  progress : List (Nat × Nat)
  journal : List Journal.Record

namespace Analysis

/-- The members that a profile selects, as entries to examine. -/
def entries (u : Zip.Unpackers) (profile : Profile) (archive : Zip.Archive)
    (ms : List Zip.Member) : List Entry :=
  (ms.filter fun m => profile.selects m.path m.isDirectory).map fun m =>
    ⟨m.path, (archive.read u m).mapError .ofFault⟩

def ofEntries (clock : Clock) (profile : Profile) (es : List Entry) : Analysis :=
  let a := Aggregation.ofEntries clock profile es
  ⟨a.result.mapError .reading, a.progress,
    ⟨.debug, .runner, toString es.length ++ " class entries selected"⟩ :: a.journal⟩

/-- The analysis of the archive that some bytes are. -/
def ofBytes (host : Host) (profile : Profile) (data : ByteArray) : Analysis :=
  match (Zip.Archive.ofBytes data).enter with
  | (.error fault, _) => ⟨.error (.opening fault), [], []⟩
  | (.ok (), archive) =>
      match archive.list with
      | .error fault => ⟨.error (.listing fault), [], []⟩
      | .ok ms => ofEntries host.clock profile (entries host.unpackers profile archive ms)

end Analysis
end JarRank
