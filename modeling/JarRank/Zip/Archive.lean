import JarRank.Zip.Content

/-!
# Archives

An archive holds its bytes from the start and may be opened and closed any
number of times. Members are listed once it has been opened, also after it has
been closed; they are read only while it is open. What a member gives depends on
the bytes and on whether the archive is open now, not on when it was listed.
-/
namespace JarRank.Zip

inductive Phase where
  | unopened
  /-- Opened, with the members of the directory. -/
  | opened (members : List Member)
  /-- Opened before, and closed since. -/
  | closed (members : List Member)
  deriving DecidableEq, Repr

structure Archive where
  data : ByteArray
  phase : Phase

inductive ListFault where
  | unopened
  /-- A member has no path, so that it cannot be told whether it is a directory. That is so
where the last character of a path is asked for; later releases of the library ask whether the
path ends with a slash, and take such a member for a file. -/
  | emptyPath
  deriving DecidableEq, Repr

def ListFault.message : ListFault → String
  | unopened => Obstacle.unopened.message
  | emptyPath => "string index out of range"

namespace Archive

def ofBytes (data : ByteArray) : Archive := ⟨data, .unopened⟩

/-- Opens an archive, or leaves it as it is. -/
def enter (a : Archive) : Except OpenFault Unit × Archive :=
  match Directory.read a.data with
  | .ok members => (.ok (), { a with phase := .opened members })
  | .error fault => (.error fault, a)

/-- Closes an archive that is open. -/
def leave (a : Archive) : Archive :=
  match a.phase with
  | .opened members => { a with phase := .closed members }
  | _ => a

def list (a : Archive) : Except ListFault (List Member) :=
  match a.phase with
  | .unopened => .error .unopened
  | .opened members | .closed members =>
      if members.any fun m => m.path.isEmpty then .error .emptyPath else .ok members

def read (u : Unpackers) (a : Archive) (m : Member) : Except ReadFault ByteArray :=
  match a.phase with
  | .unopened => .error (.obstacle .unopened)
  | .opened _ => m.read u a.data
  | .closed _ => .error (.obstacle .closed)

@[simp] theorem data_enter (a : Archive) : a.enter.2.data = a.data := by
  unfold enter
  split <;> rfl

@[simp] theorem data_leave (a : Archive) : a.leave.data = a.data := by
  unfold leave
  split <;> rfl

@[simp] theorem leave_leave (a : Archive) : a.leave.leave = a.leave := by
  obtain ⟨data, phase⟩ := a
  cases phase <;> rfl

end Archive
end JarRank.Zip
