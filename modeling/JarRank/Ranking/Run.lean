import JarRank.Bytes.Sha256
import JarRank.Files.Tree
import JarRank.Ranking.Analysis
import JarRank.Ranking.Document

/-!
# Runs

A run reads one archive from a tree of files and reports on it. A container that
cannot be opened is reported on as well. The report names the archive and its
digest, may be limited to its first methods, and is written to a directory if
one is given. Nothing is written unless all else has succeeded; directories that
have been made for the report stay where it cannot be written.
-/
namespace JarRank

/-- What is to be run. -/
structure Order where
  /-- The path of the archive, as it was given. -/
  path : String
  profile : Profile := .standard
  /-- The directory that the report is written to. -/
  outputDir : Option Files.Path := none
  /-- How many methods the report keeps. -/
  limit : Option Int := none

/-- Why a run has no report. -/
inductive RunFault where
  | notFound (path : String)
  | file (fault : Files.FileFault)
  | analysis (fault : AnalysisFault)
  | limit (fault : NegativeLimit)
  /-- An integer of the report has too many digits to be written. -/
  | integerTooLong
  deriving DecidableEq, Repr

/-- The fault as a sentence. -/
def RunFault.message : RunFault → String
  | notFound path => "Archive not found: " ++ path
  | file fault => fault.message
  | analysis fault => fault.message
  | limit fault => fault.message
  | integerTooLong =>
      "Exceeds the limit (" ++ toString Numeral.maxDigits ++ " digits) for integer string " ++
        "conversion; use sys.set_int_max_str_digits() to increase the limit"

/-- What a run yields. -/
structure Run where
  result : Except RunFault Report
  /-- The files after the run. -/
  tree : Files.Tree
  journal : List Journal.Record

namespace Run

/-- The report on an archive's bytes, and a journal. A container that cannot be opened
has a report of its own. -/
def report (host : Host) (o : Order) (data : ByteArray) :
    Except AnalysisFault Report × List Journal.Record :=
  let a := Analysis.ofBytes host o.profile data
  match a.result with
  | .error (.opening (.container fault)) =>
      (.ok (.rejected host.clock.now o.profile.id fault.message),
        a.journal ++ [⟨.error, .runner, "Cannot open " ++ o.path ++ ": " ++ fault.message⟩])
  | result => (result, a.journal)

/-- The report with the archive's path and digest, limited to what was asked for. -/
def finished (o : Order) (data : ByteArray) (r : Report) : Except NegativeLimit Report := do
  let methods ← match o.limit with
    | some n => Row.top r.methods n
    | none => pure r.methods
  return { r with
    methods
    archivePath := some (Files.Path.ofString o.path).toString
    archiveDigest := some (Sha256.hexDigest data) }

/-- The file that a report is written to. -/
def reportPath (outputDir : Files.Path) : Files.Path := outputDir.join ⟨.relative, [Report.fileName]⟩

/-- Writes a report, if a directory for it is given; or says why not, and what has been made
of the tree by then. -/
def write (tree : Files.Tree) (outputDir : Option Files.Path) (r : Report) :
    Except (RunFault × Files.Tree) Files.Tree :=
  match outputDir with
  | none => .ok tree
  | some dir =>
      match tree.makeDirectories dir with
      | .error halted => .error (.file halted.fault, halted.tree)
      | .ok tree =>
          match r.text? with
          | none => .error (.integerTooLong, tree)
          | some text =>
              (tree.write (reportPath dir) text.toUTF8).mapError fun fault => (.file fault, tree)

/-- Runs an order over a tree of files. -/
def ofOrder (host : Host) (tree : Files.Tree) (o : Order) : Run :=
  let path := Files.Path.ofString o.path
  match tree.exists path with
  | .error fault => ⟨.error (.file fault), tree, []⟩
  | .ok false => ⟨.error (.notFound o.path), tree, []⟩
  | .ok true =>
      match tree.read path with
      | .error fault => ⟨.error (.file fault), tree, []⟩
      | .ok data =>
          match report host o data with
          | (.error fault, journal) => ⟨.error (.analysis fault), tree, journal⟩
          | (.ok r, journal) =>
              match finished o data r with
              | .error fault => ⟨.error (.limit fault), tree, journal⟩
              | .ok r =>
                  match write tree o.outputDir r with
                  | .error (fault, tree) => ⟨.error fault, tree, journal⟩
                  | .ok after => ⟨.ok r, after, journal⟩

end Run
end JarRank
