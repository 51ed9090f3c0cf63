import JarRank.CommandLine.Arguments
import JarRank.Ranking.Run

/-!
# Sessions

One use of the command line over a tree of files: what is printed, what is told,
which files there are afterwards, and with which status it ends. The report is
written with all methods, before any of them is printed. A fault that no message
is made of ends the session without a status.

Arguments are texts. One that has bytes which are no text is not among them; what
is printed of such a path could not be encoded, and the session would end there,
behind the writing of the report.
-/
namespace JarRank.CommandLine

def usage : String := "usage: classfile-ranker [-h] [-n TOP] [-o OUTPUT_DIR] [-v] archive\n"

def help : String := usage ++ "
classfile_ranker — rank JVM methods by bytecode size

positional arguments:
  archive               Path to a .jar file

options:
  -h, --help            show this help message and exit
  -n TOP, --top TOP     Number of methods to print (default: profile default)
  -o OUTPUT_DIR, --output-dir OUTPUT_DIR
                        Directory to write JSON outputs
  -v, --verbose         Enable verbose logging
"

inductive SessionFault where
  | run (fault : RunFault)
  /-- The switch for the number of methods has lost its value. -/
  | blankAmount
  deriving DecidableEq, Repr

def SessionFault.message : SessionFault → String
  | run fault => fault.message
  | blankAmount => "'<' not supported between instances of 'list' and 'int'"

structure Session where
  /-- The status that it ends with, or why it has none. -/
  exit : Except SessionFault Nat
  output : String := ""
  errors : String := ""
  tree : Files.Tree

/-- A text behind blanks, at least `width` characters in all. -/
def padded (width : Nat) (s : String) : String :=
  String.ofList (List.replicate (width - s.length) ' ') ++ s

def rowLine (rank : Nat) (r : Row) : String :=
  padded 4 (toString rank) ++ "  " ++ padded 7 (toString r.size) ++ "  " ++ r.className ++ "." ++
    r.methodName ++ r.descriptor ++ "\n"

def summary (r : Report) : String :=
  "Classes scanned: " ++ toString r.stats.entriesScanned ++ "\n" ++
    "Methods found: " ++ toString r.stats.methodsFound ++ "\n" ++
    "Parse time: " ++ r.stats.elapsed.oneDecimal ++ " ms\n" ++
    String.join (r.warnings.map fun w => "warning: " ++ w ++ "\n")

def ranking (rows : List Row) : String :=
  String.join (rows.zipIdx.map fun (row, i) => rowLine (i + 1) row)

/-- What is printed about the directory that the report has been written to. -/
def closing (outputDir : Option Files.Path) : String :=
  match outputDir with
  | some dir => "Outputs written to: " ++ dir.toString ++ "\n"
  | none => ""

/-- The methods that an amount asks for. -/
def Amount.rows (methods : List Row) : Amount → Except SessionFault (List Row)
  | standard => (Row.top methods Profile.standard.defaultTop).mapError fun e => .run (.limit e)
  | number n => (Row.top methods n).mapError fun e => .run (.limit e)
  | blank => .error .blankAmount

namespace Session

def ofReport (a : Arguments) (r : Report) (tree : Files.Tree) (errors : String) : Session :=
  match a.top.rows r.methods with
  | .error fault => ⟨.error fault, summary r, errors, tree⟩
  | .ok rows => ⟨.ok 0, summary r ++ ranking rows ++ closing a.outputDir, errors, tree⟩

def ofArguments (host : Host) (tree : Files.Tree) (a : Arguments) : Session :=
  let told := Journal.text a.verbose
  match tree.exists (Files.Path.ofString a.archive) with
  | .error fault => ⟨.error (.run (.file fault)), "", "", tree⟩
  | .ok false => ⟨.ok 1, "", told [⟨.error, .runner, "File not found: " ++ a.archive⟩], tree⟩
  | .ok true =>
      let run := Run.ofOrder host tree { path := a.archive, outputDir := a.outputDir }
      match run.result with
      | .error fault => ⟨.error (.run fault), "", told run.journal, run.tree⟩
      | .ok r =>
          if r.verdict = Verdict.reject.label then
            let records := r.warnings.map fun w => ⟨.error, .runner, w⟩
            ⟨.ok 2, "", told (run.journal ++ records), run.tree⟩
          else ofReport a r run.tree (told run.journal)

/-- The paths that a session may look at or write to. -/
def paths (arguments : List String) : List Files.Path :=
  match Arguments.parse arguments with
  | .error _ => []
  | .ok a =>
      Files.Path.ofString a.archive :: a.outputDir.toList.flatMap fun dir => [dir, Run.reportPath dir]

def start (host : Host) (tree : Files.Tree) (arguments : List String) : Session :=
  match Arguments.parse arguments with
  | .error .help => ⟨.ok 0, help, "", tree⟩
  | .error (.refused refusal) =>
      ⟨.ok 2, "", usage ++ "classfile-ranker: error: " ++ refusal.message ++ "\n", tree⟩
  | .ok a => ofArguments host tree a

end Session
end JarRank.CommandLine
