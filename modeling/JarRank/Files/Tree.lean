import JarRank.Files.Path
import JarRank.Text.Quoted

/-!
# Trees of files

A tree holds what is known of the files around a working directory. The working
directory, all directories above it and the root exist; anything else exists if
it has been put there. A path is followed part by part: every part but the last
has to be a directory, and two dots lead to the directory above, whatever was
named before them. A name may have so many bytes and no more, and so may a path.

The system may refuse, for reasons of its own, to tell what is at a place, to go
on from there, to read it or to change it. A file that it lets be changed is
written as a whole.
-/
namespace JarRank.Files

/-- A directory that always exists. -/
inductive Base where
  | root
  /-- The directory so many levels above the working directory. -/
  | above (levels : Nat)
  deriving DecidableEq, Repr

structure Place where
  base : Base
  names : List String
  deriving DecidableEq, Repr

namespace Place

def working : Place := ⟨.above 0, []⟩

def child (p : Place) (name : String) : Place := ⟨p.base, name :: p.names⟩

def parent : Place → Place
  | ⟨base, _ :: names⟩ => ⟨base, names⟩
  | ⟨.above levels, []⟩ => ⟨.above (levels + 1), []⟩
  | ⟨.root, []⟩ => ⟨.root, []⟩

/-- A path that leads to a place where all that is named on the way exists. -/
def path : Place → Path
  | ⟨.root, names⟩ => ⟨.single, names.reverse⟩
  | ⟨.above levels, names⟩ => ⟨.relative, List.replicate levels ".." ++ names.reverse⟩

/-- The path of a place that is in the working directory. -/
def relative? (p : Place) : Option String :=
  if p.base = .above 0 then some ("/".intercalate p.names.reverse) else none

end Place

inductive Node where
  | directory
  | file (content : ByteArray)

def Node.isDirectory : Node → Bool
  | directory => true
  | file _ => false

inductive Act where
  /-- To tell what is there. -/
  | look
  /-- To follow a name from a directory. -/
  | enter
  | read
  /-- To change a file, or what is in a directory. -/
  | change
  deriving DecidableEq, Repr

/-- An error of the system, by number, that is none of those which have a cause of their own. -/
structure Refusal where
  number : Nat
  words : String
  isOther : number ∉ [2, 17, 20, 21, 36]
  deriving DecidableEq, Repr

structure Tree where
  /-- What exists beside the bases, the latest first. -/
  nodes : List (Place × Node)
  /-- What the system refuses. -/
  refusals : List ((Place × Act) × Refusal) := []

inductive Cause where
  | missing
  | exists
  | notDirectory
  | isDirectory
  /-- The path has a NUL in it. -/
  | nul
  | nameTooLong
  | refused (refusal : Refusal)
  deriving DecidableEq, Repr

/-- Whether the cause says that nothing is there: the last two are a bad descriptor and too many
links that lead to each other. -/
def Cause.isAbsence : Cause → Bool
  | missing | notDirectory | nul => true
  | refused r => r.number = 9 || r.number = 40
  | _ => false

/-- A cause and the path that was to be used. -/
structure FileFault where
  cause : Cause
  path : Path
  deriving DecidableEq, Repr

def FileFault.message (f : FileFault) : String :=
  let quoted := Quoted.text f.path.toString
  match f.cause with
  | .missing => "[Errno 2] No such file or directory: " ++ quoted
  | .exists => "[Errno 17] File exists: " ++ quoted
  | .notDirectory => "[Errno 20] Not a directory: " ++ quoted
  | .isDirectory => "[Errno 21] Is a directory: " ++ quoted
  | .nul => "embedded null byte"
  | .nameTooLong => "[Errno 36] File name too long: " ++ quoted
  | .refused r => "[Errno " ++ toString r.number ++ "] " ++ r.words ++ ": " ++ quoted

/-- What could not be done, and the tree as it was when that was met. -/
structure Halted where
  fault : FileFault
  tree : Tree

namespace Tree

def empty : Tree := { nodes := [] }

/-- How many bytes a name may have. -/
def longestName : Nat := 255

/-- How many bytes a path may have. -/
def longestPath : Nat := 4095

def node? (t : Tree) (p : Place) : Option Node :=
  if p.names.isEmpty then some .directory else t.nodes.lookup p

/-- Puts something at a place, in place of what is there. -/
def put (t : Tree) (p : Place) (n : Node) : Tree :=
  { t with nodes := (p, n) :: t.nodes.filter fun m => m.1 != p }

def permit (t : Tree) (p : Place) (act : Act) : Except Cause Unit :=
  match t.refusals.lookup (p, act) with
  | some refusal => .error (.refused refusal)
  | none => .ok ()

/-- Follows names from a place on; the last of them need not exist. -/
def follow (t : Tree) : Place → List String → Except Cause Place
  | p, [] => .ok p
  | p, name :: names =>
      match t.node? p with
      | none => .error .missing
      | some (.file _) => .error .notDirectory
      | some .directory =>
          match t.permit p .enter with
          | .error cause => .error cause
          | .ok () =>
              if longestName < name.utf8ByteSize then .error .nameTooLong
              else t.follow (if name = ".." then p.parent else p.child name) names

def resolve (t : Tree) (p : Path) : Except Cause Place :=
  if p.parts.any fun name => '\x00' ∈ name.toList then .error .nul
  else if longestPath < p.toString.utf8ByteSize then .error .nameTooLong
  else t.follow (if p.isAbsolute then ⟨.root, []⟩ else .working) p.parts

/-- What a path leads to. -/
def look (t : Tree) (p : Path) : Except Cause Node := do
  let place ← t.resolve p
  t.permit place .look
  match t.node? place with
  | some node => return node
  | none => .error .missing

def find? (t : Tree) (p : Path) : Option Node := (t.look p).toOption

/-- Whether what a path leads to has a property; nothing has one. -/
def ask (t : Tree) (p : Path) (property : Node → Bool) : Except FileFault Bool :=
  match t.look p with
  | .ok node => .ok (property node)
  | .error cause => if cause.isAbsence then .ok false else .error ⟨cause, p⟩

def «exists» (t : Tree) (p : Path) : Except FileFault Bool := t.ask p fun _ => true

def isDirectory (t : Tree) (p : Path) : Except FileFault Bool := t.ask p Node.isDirectory

def isFile (t : Tree) (p : Path) : Except FileFault Bool := t.ask p fun node => !node.isDirectory

def read (t : Tree) (p : Path) : Except FileFault ByteArray := do
  let place ← (t.resolve p).mapError (⟨·, p⟩)
  (t.permit place .read).mapError (⟨·, p⟩)
  match t.node? place with
  | none => .error ⟨.missing, p⟩
  | some .directory => .error ⟨.isDirectory, p⟩
  | some (.file content) => .ok content

/-- Writes a file into a directory that exists. A new one changes the directory. -/
def write (t : Tree) (p : Path) (content : ByteArray) : Except FileFault Tree := do
  let place ← (t.resolve p).mapError (⟨·, p⟩)
  match t.node? place with
  | some .directory => .error ⟨.isDirectory, p⟩
  | some (.file _) => (t.permit place .change).mapError (⟨·, p⟩)
  | none => (t.permit place.parent .change).mapError (⟨·, p⟩)
  return t.put place (.file content)

/-- Makes a directory in one that exists. -/
def makeDirectory (t : Tree) (p : Path) : Except Cause Tree := do
  let place ← t.resolve p
  match t.node? place with
  | some _ => .error .exists
  | none => t.permit place.parent .change
  return t.put place .directory

/-- Makes a directory in one that exists, unless it is there already. -/
def ensureDirectory (t : Tree) (p : Path) : Except Cause Tree :=
  match t.makeDirectory p with
  | .ok t => .ok t
  | .error cause =>
      match t.isDirectory p with
      | .ok true => .ok t
      | .ok false => .error cause
      | .error fault => .error fault.cause

/-- Makes the directory with some names, innermost first, and those that it is in, unless
they are there already. A directory further out is only made where one is missing, and stays
where one further in cannot be made. -/
def ensureDirectories (t : Tree) (root : Root) : List String → Except Halted Tree
  | [] => (t.ensureDirectory ⟨root, []⟩).mapError fun cause => ⟨⟨cause, ⟨root, []⟩⟩, t⟩
  | name :: outer =>
      let p : Path := ⟨root, (name :: outer).reverse⟩
      match t.ensureDirectory p with
      | .ok t => .ok t
      | .error .missing => do
          let t ← t.ensureDirectories root outer
          (t.ensureDirectory p).mapError fun cause => ⟨⟨cause, p⟩, t⟩
      | .error cause => .error ⟨⟨cause, p⟩, t⟩

/-- Makes a directory and those that it is in, unless they are there already. -/
def makeDirectories (t : Tree) (p : Path) : Except Halted Tree :=
  t.ensureDirectories p.root p.parts.reverse

def files (t : Tree) : List (Place × ByteArray) :=
  t.nodes.filterMap fun (place, node) =>
    match node with
    | .file content => some (place, content)
    | .directory => none

/-- The files of a later tree that an earlier one has not, or has with other content. -/
def changes (before after : Tree) : List (Place × ByteArray) :=
  after.files.filter fun (place, content) => before.files.lookup place != some content

/-- The changes in the working directory, with their paths there. -/
def workingChanges (before after : Tree) : List (String × ByteArray) :=
  (before.changes after).filterMap fun (place, content) => place.relative?.map (·, content)

end Tree
end JarRank.Files
