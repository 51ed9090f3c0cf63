/-!
# Journals

What a run tells about its progress: records of a severity, the part of the
program they come from, and a text.
-/
namespace JarRank.Journal

inductive Severity where
  | debug
  | info
  | warning
  | error
  deriving DecidableEq, Repr

def Severity.label : Severity → String
  | debug => "DEBUG"
  | info => "INFO"
  | warning => "WARNING"
  | error => "ERROR"

inductive Origin where
  | runner
  | aggregation
  deriving DecidableEq, Repr

def Origin.label : Origin → String
  | runner => "classfile_ranker.runner"
  | aggregation => "classfile_ranker.core.aggregation"

structure Record where
  severity : Severity
  origin : Origin
  text : String
  deriving DecidableEq, Repr

def Record.line (r : Record) : String :=
  r.severity.label ++ " " ++ r.origin.label ++ ": " ++ r.text ++ "\n"

/-- The lines of a journal; the least severe records only if it is verbose. -/
def text (verbose : Bool) (records : List Record) : String :=
  String.join ((records.filter fun r => verbose || r.severity != .debug).map Record.line)

end JarRank.Journal
