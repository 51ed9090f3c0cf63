/-!
# Verdicts

How much of an archive its ranking covers. A container that cannot be opened is
rejected; missing or failed class files are only warned of.
-/
namespace JarRank

/-- What is to be thought of a ranking. -/
inductive Verdict where
  | accept
  | warn
  | reject
  deriving DecidableEq, Repr

/-- Why a verdict is not `accept`. -/
inductive Reason where
  | invalidContainer
  | noClassFiles
  | entriesFailed
  deriving DecidableEq, Repr

/-- The verdict as a word. -/
def Verdict.label : Verdict → String
  | accept => "ACCEPT"
  | warn => "WARN"
  | reject => "REJECT"

/-- The reason as a word. -/
def Reason.label : Reason → String
  | invalidContainer => "INVALID_CONTAINER"
  | noClassFiles => "NO_CLASS_FILES"
  | entriesFailed => "ENTRIES_FAILED"

/-- What a finished run has to be warned of. -/
def Reason.ofCounts (scanned failed : Int) : List Reason :=
  (if scanned = 0 then [noClassFiles] else []) ++ (if 0 < failed then [entriesFailed] else [])

/-- The verdict on a finished run: any reason makes it a warning. -/
def Verdict.ofReasons : List Reason → Verdict
  | [] => accept
  | _ => warn

end JarRank
