/-!
# Paths

A path is a root and the names of its parts. Empty parts and single dots say
nothing and are left out; double dots are kept, because what they lead to
depends on the tree. A path begins at a root if its text begins with a slash;
exactly two slashes are a root of their own.
-/
namespace JarRank.Files

inductive Root where
  | relative
  | single
  | double
  deriving DecidableEq, Repr

def Root.text : Root → String
  | relative => ""
  | single => "/"
  | double => "//"

structure Path where
  root : Root
  parts : List String
  deriving DecidableEq, Repr

namespace Path

/-- Whether a part of a text leads anywhere. -/
def isPart (name : String) : Bool := name != "" && name != "."

/-- The pieces of a text between slashes, the last one first; `piece` is the one begun,
in reverse. -/
def pieces : List Char → (piece : List Char) → List String → List String
  | [], piece, acc => String.ofList piece.reverse :: acc
  | c :: cs, piece, acc =>
      if c = '/' then pieces cs [] (String.ofList piece.reverse :: acc) else pieces cs (c :: piece) acc

def ofString (s : String) : Path :=
  let root :=
    match (s.toList.takeWhile (· = '/')).length with
    | 0 => Root.relative
    | 2 => .double
    | _ => .single
  ⟨root, (pieces s.toList [] []).reverse.filter isPart⟩

def toString (p : Path) : String :=
  if p.root = .relative ∧ p.parts = [] then "." else p.root.text ++ "/".intercalate p.parts

def isAbsolute (p : Path) : Bool := p.root != .relative

/-- The paths that a path leads through, the outermost first and itself last. -/
def steps (p : Path) : List Path :=
  (List.range p.parts.length).map fun i => ⟨p.root, p.parts.take (i + 1)⟩

/-- One path behind another; a path with a root stands alone. -/
def join (p q : Path) : Path := if q.isAbsolute then q else ⟨p.root, p.parts ++ q.parts⟩

def name (p : Path) : String := p.parts.getLast?.getD ""

/-- A name up to its last dot; a dot at either end does not count. -/
def stemOf (name : String) : String :=
  let cs := name.toList
  let behind := (cs.reverse.takeWhile (· ≠ '.')).length
  let front := cs.take (cs.length - behind - 1)
  if behind = 0 ∨ behind = cs.length ∨ front.isEmpty then name else String.ofList front

def stem (p : Path) : String := stemOf p.name

@[simp] theorem join_of_isAbsolute {p q : Path} (h : q.isAbsolute) : p.join q = q := by
  simp [join, h]

theorem join_of_relative {p q : Path} (h : q.root = .relative) :
    p.join q = ⟨p.root, p.parts ++ q.parts⟩ := by
  simp [join, isAbsolute, h]

end Path
end JarRank.Files
