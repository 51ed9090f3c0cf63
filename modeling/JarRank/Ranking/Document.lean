import JarRank.Json.Print
import JarRank.Number.Numeral
import JarRank.Ranking.Report

/-!
# Reports as documents

The JSON value of a report and of its parts, and the text of the file that a
report is written to. Counts by version are an object whose keys are the decimal
texts of the versions. A report with an integer that has too many digits to be
spelled has no such text.
-/
namespace JarRank

def Json.texts (ss : List String) : Json := .array (ss.map Json.text)

def Row.toJson (r : Row) : Json :=
  .record [("class_name", .text r.className), ("method_name", .text r.methodName),
    ("descriptor", .text r.descriptor), ("bytecode_size", .integer r.size)]

def Failure.toJson (f : Failure) : Json :=
  .record [("path", .text f.path), ("kind", .text f.kind), ("state", .textOrNull f.state),
    ("message", .text f.message)]

def Stats.toJson (s : Stats) : Json :=
  .record [("entries_scanned", .integer s.entriesScanned), ("methods_found", .integer s.methodsFound),
    ("elapsed_ms", .number s.elapsed)]

def Census.toJson (c : Census) : Json :=
  .record (c.entries.map fun (n, k) => (toString n, .integer k))

namespace Report

def toJson (r : Report) : Json :=
  .record [("package_name", .text r.packageName), ("ranker_version", .text r.rankerVersion),
    ("schema_version", .text r.schemaVersion), ("profile_id", .text r.profileId),
    ("archive_path", .textOrNull r.archivePath), ("archive_sha256", .textOrNull r.archiveDigest),
    ("verdict", .text r.verdict), ("reasons", .texts r.reasons),
    ("methods", .array (r.methods.map Row.toJson)), ("stats", r.stats.toJson),
    ("warnings", .texts r.warnings), ("failures", .array (r.failures.map Failure.toJson)),
    ("class_versions", r.classVersions.toJson), ("timestamp", .text r.timestamp)]

/-- The text of a report, with its integers spelled however long they are. -/
def document (r : Report) : String := r.toJson.toDocument

/-- Whether no integer in a report has more than `limit` digits, the versions included. -/
def isSpelled (limit : Nat) (r : Report) : Bool :=
  r.toJson.isSpelled limit && r.classVersions.entries.all fun e => Json.digitsOf e.1 ≤ limit

/-- The content of the file that a report is written to. -/
def text? (r : Report) : Option String :=
  if r.isSpelled Numeral.maxDigits then some r.document else none

def fileName : String := "ranking_report.json"

end Report
end JarRank
