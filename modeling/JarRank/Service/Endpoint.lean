import JarRank.Service.Reply
import JarRank.Service.Request
import JarRank.Service.Settings

/-!
# The service

Three places can be asked: one tells what the service is, one that it is alive,
and one ranks an archive. An archive is given by a path, under the directory of
archives if it has no root. Its report may be written to a directory of its own
under the directory of results, which is named after the archive. A path that
leads to a place but for the slashes at its end is answered by sending the asker on.
-/
namespace JarRank.Service

structure Outcome where
  reply : Reply
  tree : Files.Tree

namespace Ranking

def archive (s : Settings) (r : Request) : Files.Path :=
  s.archives.join (.ofString r.archivePath)

/-- The directory that the report is written to, if it is to be written. -/
def outputDir (s : Settings) (r : Request) : Option Files.Path :=
  if r.writesOutputs then some (s.results.join (.ofString (archive s r).stem)) else none

def limit (s : Settings) (r : Request) : Int := r.top.getD s.defaultTop

def order (s : Settings) (r : Request) : Order :=
  { path := (archive s r).toString, outputDir := outputDir s r, limit := some (limit s r) }

/-- The value that answers a request with a report. -/
def answer (s : Settings) (r : Request) (report : Report) : Json :=
  .record [("package_name", .text report.packageName),
    ("ranker_version", .text report.rankerVersion),
    ("schema_version", .text report.schemaVersion), ("profile_id", .text report.profileId),
    ("archive_path", .text (archive s r).toString), ("verdict", .text report.verdict),
    ("reasons", .texts report.reasons), ("stats", report.stats.toJson),
    ("methods", .array (report.methods.map Row.toJson)), ("warnings", .texts report.warnings),
    ("failures", .array (report.failures.map Failure.toJson)),
    ("output_dir", .textOrNull ((outputDir s r).map Files.Path.toString))]

/-- The reply to a request, given the report of its run. -/
def reply (s : Settings) (r : Request) (report : Report) : Reply :=
  if report.verdict = Verdict.reject.label then
    .ofDetail 422 (.record [("reasons", .texts report.reasons), ("warnings", .texts report.warnings)])
  else .ofJson 200 (answer s r report)

/-- What comes of a request that has been understood. -/
def handle (host : Host) (s : Settings) (tree : Files.Tree) (r : Request) : Outcome :=
  match tree.isFile (archive s r) with
  | .error fault => ⟨.ofFault (.run (.file fault)), tree⟩
  | .ok false => ⟨.ofDetail 404 (.text ("Archive not found: " ++ (archive s r).toString)), tree⟩
  | .ok true =>
      let run := Run.ofOrder host tree (order s r)
      match run.result with
      | .error fault => ⟨.ofFault (.run fault), run.tree⟩
      | .ok report => ⟨reply s r report, run.tree⟩

/-- What comes of the body of a request. -/
def handleBody (host : Host) (s : Settings) (tree : Files.Tree) (body : Bytes) : Outcome :=
  match Request.ofBytes body with
  | .ok r => handle host s tree r
  | .error .unreadable => ⟨.ofDetail 400 (.text "There was an error parsing the body"), tree⟩
  | .error (.invalid cs) => ⟨.ofDetail 422 (.array (cs.map complaintJson)), tree⟩

end Ranking

inductive Route where
  | root
  | health
  | ranking
  deriving DecidableEq, Repr

namespace Route

def path : Route → String
  | root => "/"
  | health => "/health"
  | ranking => "/ranker/run"

def method : Route → String
  | root | health => "GET"
  | ranking => "POST"

/-- The place at a path, which one line feed may end. -/
def find? (path : String) : Option Route :=
  [root, health, ranking].find? fun r => path == r.path || path == r.path ++ "\n"

/-- A path without the slashes at its end, or with one put there if it has none. -/
def toggleSlash (path : String) : String :=
  match path.toList.reverse with
  | '/' :: cs => String.ofList (cs.dropWhile (· = '/')).reverse
  | _ => path ++ "/"

end Route

def greeting : Json :=
  .record [("message", .text "Classfile Ranker API - JVM method size ranking"),
    ("docs", .text "/docs"), ("health", .text "/health")]

def pulse (s : Settings) : Json :=
  .record [("status", .text "healthy"), ("service", .text "classfile-ranker-api"),
    ("version", .text s.version)]

/-- What comes of a request to a path. -/
def handle (host : Host) (s : Settings) (tree : Files.Tree) (method path : String) (body : Bytes) :
    Outcome :=
  match Route.find? path with
  | none =>
      if (Route.find? (Route.toggleSlash path)).isSome then ⟨.elsewhere, tree⟩
      else ⟨.ofDetail 404 (.text "Not Found"), tree⟩
  | some route =>
      if method ≠ route.method then ⟨.ofDetail 405 (.text "Method Not Allowed"), tree⟩
      else
        match route with
        | .root => ⟨.ofJson 200 greeting, tree⟩
        | .health => ⟨.ofJson 200 (pulse s), tree⟩
        | .ranking => Ranking.handleBody host s tree body

end JarRank.Service
