import JarRank.Number.Binary64
import JarRank.Ranking.Census
import JarRank.Ranking.Verdict

/-!
# Reports

The ranking of one archive: its methods, what was counted on the way, and what
could not be examined. Every report names the release that made it, and the time
when it was made.
-/
namespace JarRank

structure Row where
  /-- The name with `.` between its parts. -/
  className : String
  methodName : String
  descriptor : String
  size : Nat
  deriving DecidableEq, Repr

structure Failure where
  path : String
  kind : String
  /-- The section in which the cause was met, if the file could be read at all. -/
  state : Option String
  message : String
  deriving DecidableEq, Repr

structure Stats where
  entriesScanned : Int := 0
  methodsFound : Int := 0
  elapsed : Binary64 := .zero
  deriving DecidableEq, Repr

structure Report where
  packageName : String := "classfile_ranker"
  rankerVersion : String := "v0"
  schemaVersion : String := "0.1"
  profileId : String
  archivePath : Option String := none
  archiveDigest : Option String := none
  verdict : String := Verdict.accept.label
  reasons : List String := []
  methods : List Row := []
  stats : Stats := {}
  warnings : List String := []
  failures : List Failure := []
  /-- How many class files there are of each major version. -/
  classVersions : Census := .empty
  timestamp : String
  deriving DecidableEq, Repr

/-- A number of methods below zero was asked for. -/
structure NegativeLimit where
  limit : Int
  deriving DecidableEq, Repr

/-- The complaint about a negative number of methods. -/
def NegativeLimit.message (e : NegativeLimit) : String :=
  "n must be >= 0, got " ++ toString e.limit

/-- The first `n` rows of a ranking. -/
def Row.top (rows : List Row) (n : Int) : Except NegativeLimit (List Row) :=
  if n < 0 then .error ⟨n⟩ else .ok (rows.take n.toNat)

/-- What a class file that failed is warned of with. -/
def Failure.warning (f : Failure) : String := "Failed to parse " ++ f.path ++ ": " ++ f.message

/-- The report on an archive that cannot be opened. Its analysis has taken no time. -/
def Report.rejected (now profileId message : String) : Report :=
  { profileId
    verdict := Verdict.reject.label
    reasons := [Reason.invalidContainer.label]
    warnings := [message]
    timestamp := now }

end JarRank
