import JarRank.CommandLine.Session

/-!
# The program

The program looks at the files that its arguments name, holds a session over
them, writes the files that the session has changed, and prints what it says. A
file that can be neither read nor entered stops the program. Its host is a bare
one: reports are dated to a fixed time and take no time, so that the same archive
always gives the same report.
-/
namespace JarRank

/-- Puts into a tree what a path leads to in the file system, if anything, and if the tree
knows nothing of it yet. -/
def look (tree : Files.Tree) (path : Files.Path) : IO Files.Tree := do
  let .ok place := tree.resolve path | return tree
  if (tree.node? place).isSome then return tree
  try
    return tree.put place (.file (← IO.FS.readBinFile path.toString))
  catch
    | .noFileOrDirectory .. => return tree
    | .inappropriateType .. => return tree.put place .directory
    | e => throw e

/-- Writes the files that a later tree has and an earlier one has not. -/
def save (before after : Files.Tree) : IO Unit :=
  (before.changes after).forM fun (place, content) => do
    IO.FS.createDirAll place.parent.path.toString
    IO.FS.writeBinFile place.path.toString content

end JarRank

open JarRank in
/-- Ranks the methods of an archive, as the arguments say. -/
def main (arguments : List String) : IO UInt32 := do
  let steps := (CommandLine.Session.paths arguments).flatMap Files.Path.steps
  let tree ← steps.foldlM look Files.Tree.empty
  let session := CommandLine.Session.start Host.bare tree arguments
  save tree session.tree
  IO.print session.output
  IO.eprint session.errors
  match session.exit with
  | .ok status => return status.toUInt32
  | .error fault =>
      IO.eprintln fault.message
      return 1
