import JarRank.Number.Shortest
import JarRank.Ranking.Examination
import JarRank.Ranking.Host
import JarRank.Ranking.Journal
import JarRank.Ranking.Profile

/-!
# From class files to a report

The class files are examined in a loop, which gathers what is found and tells
after each of them how many have been done. A class file that fails is told of
like any other; one whose reading meets an obstacle ends the loop at once. Behind
the loop the methods of all class files, in the order of the files and within
them in their own, are ranked by size, the largest first; methods of one size
keep their order.
-/
namespace JarRank

/-- What a loop over class files has gathered. -/
structure Gathering where
  rows : Array Row := #[]
  warnings : Array String := #[]
  failures : Array Failure := #[]
  versions : Census := .empty
  /-- How many of how many have been examined, after each. -/
  calls : Array (Nat × Nat) := #[]
  records : Array Journal.Record := #[]

namespace Gathering

def fail (g : Gathering) (f : Failure) : Gathering :=
  { g with
    records := g.records.push ⟨.warning, .aggregation, f.warning⟩
    warnings := g.warnings.push f.warning
    failures := g.failures.push f }

def succeed (g : Gathering) (path : String) (s : ClassFile.Summary) : Gathering :=
  let told := path ++ ": " ++ toString s.methods.length ++ " methods (major=" ++ toString s.major ++ ")"
  { g with
    versions := g.versions.add s.major
    rows := g.rows ++ Row.ofSummary s
    records := g.records.push ⟨.debug, .aggregation, told⟩ }

def call (g : Gathering) (processed total : Nat) : Gathering :=
  { g with calls := g.calls.push (processed, total) }

/-- The loop over class files, from the one with the number `processed` on, up to the end or the
first obstacle. -/
def loop (code : String) (total : Nat) :
    (processed : Nat) → List Entry → Gathering → Gathering × Option Zip.Obstacle
  | _, [], g => (g, none)
  | processed, e :: es, g =>
      match e.examine code with
      | .error obstacle => (g, some obstacle)
      | .ok x =>
          let g :=
            match x.result with
            | .error f => g.fail f
            | .ok s => g.succeed e.path s
          loop code total (processed + 1) es (g.call processed total)

end Gathering

structure Aggregation where
  result : Except Zip.Obstacle Report
  /-- How many of how many have been examined, after each. -/
  progress : List (Nat × Nat)
  journal : List Journal.Record

/-- Rows by size, the largest first; a stable sort. -/
def Row.ranked (rows : List Row) : List Row := rows.mergeSort fun a b => b.size ≤ a.size

namespace Report

/-- What is warned of where there is nothing to examine. -/
def noClassFilesWarning : String := "No .class files found in archive"

/-- The report where there is nothing to examine. -/
def vacant (clock : Clock) (profile : Profile) : Report :=
  let reasons := Reason.ofCounts 0 0
  { profileId := profile.id
    verdict := (Verdict.ofReasons reasons).label
    reasons := reasons.map Reason.label
    stats := { elapsed := clock.elapsed }
    warnings := [noClassFilesWarning]
    timestamp := clock.now }

/-- The report on class files, of which so many have been gone through. -/
def ofGathering (clock : Clock) (profile : Profile) (total : Nat) (g : Gathering) : Report :=
  let reasons := Reason.ofCounts total g.failures.size
  { profileId := profile.id
    verdict := (Verdict.ofReasons reasons).label
    reasons := reasons.map Reason.label
    methods := Row.ranked g.rows.toList
    stats := ⟨total, g.rows.size, clock.elapsed⟩
    warnings := g.warnings.toList
    failures := g.failures.toList
    classVersions := g.versions
    timestamp := clock.now }

/-- What is told of a finished run. -/
def closing (r : Report) : String :=
  "Ranked " ++ toString r.stats.methodsFound ++ " methods from " ++
    toString r.stats.entriesScanned ++ " class files (" ++ toString r.failures.length ++
    " failed) in " ++ r.stats.elapsed.oneDecimal ++ " ms"

end Report

/-- Examines class files and reports on them. -/
def Aggregation.ofEntries (clock : Clock) (profile : Profile) (es : List Entry) : Aggregation :=
  if es.isEmpty then ⟨.ok (.vacant clock profile), [], []⟩
  else
    let (g, obstacle) := Gathering.loop profile.codeAttribute es.length 1 es {}
    match obstacle with
    | some obstacle => ⟨.error obstacle, g.calls.toList, g.records.toList⟩
    | none =>
        let report := Report.ofGathering clock profile es.length g
        ⟨.ok report, g.calls.toList,
          g.records.toList ++ [⟨.info, .aggregation, report.closing⟩]⟩

end JarRank
