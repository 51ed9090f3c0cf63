import JarRank.ClassFile.Summary
import JarRank.Ranking.Report
import JarRank.Zip.Content

/-!
# Examinations

Each class file is read and summarised by itself. If it cannot be read, or is no
class file, the failure is kept in the place of the summary. Only an obstacle,
which is no matter of one class file, leaves nothing to be kept.
-/
namespace JarRank

/-- Why a class file has no content. -/
inductive Unread where
  | unreadable (reason : String)
  /-- Another failure of the class file alone, which says by itself what it is. -/
  | failed (kind : String) (state : Option String) (message : String)
  | blocked (obstacle : Zip.Obstacle)
  deriving DecidableEq, Repr

/-- The same fault of a member of an archive. -/
def Unread.ofFault : Zip.ReadFault → Unread
  | .member fault => unreadable fault.reason
  | .obstacle obstacle => blocked obstacle

structure Entry where
  path : String
  content : Except Unread ByteArray

structure Examination where
  path : String
  result : Except Failure ClassFile.Summary

def Failure.unreadable (path reason : String) : Failure :=
  ⟨path, "ENTRY_UNREADABLE", none, "Cannot read archive entry " ++ path ++ ": " ++ reason⟩

def Failure.ofFault (path : String) (e : ClassFile.StagedFault) : Failure :=
  ⟨path, e.fault.kind, some e.stage.label, e.fault.message⟩

/-- Examines one class file, whose bytecode is in the attribute `code`. -/
def Entry.examine (code : String) (e : Entry) : Except Zip.Obstacle Examination :=
  match e.content with
  | .error (.blocked obstacle) => .error obstacle
  | .error (.unreadable reason) => .ok ⟨e.path, .error (.unreadable e.path reason)⟩
  | .error (.failed kind state message) => .ok ⟨e.path, .error ⟨e.path, kind, state, message⟩⟩
  | .ok bytes =>
      .ok ⟨e.path, (ClassFile.Summary.decode bytes.toList code).mapError (.ofFault e.path)⟩

/-- The methods of a class file, in its own order. -/
def Row.ofSummary (s : ClassFile.Summary) : List Row :=
  s.methods.map fun m => ⟨s.displayName, m.name, m.descriptor, m.size⟩

end JarRank
