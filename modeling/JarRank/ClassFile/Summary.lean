import JarRank.ClassFile.Section

/-!
# Class summaries

What is kept of a whole class file: its name, its version and its methods. The
sections are read once, in order; the first fault ends the reading and carries
the section in which it was met. Bytes behind the last section are not looked at.
-/
namespace JarRank.ClassFile

def codeAttribute : String := "Code"

structure Summary where
  /-- The name with `/` between its parts. -/
  name : String
  major : Nat
  minor : Nat
  methods : List Method
  deriving DecidableEq, Repr

namespace Summary

/-- The name with `.` between its parts. -/
def displayName (s : Summary) : String :=
  String.ofList (s.name.toList.map fun c => if c = '/' then '.' else c)

variable {κ : Type} [Source κ]

def readMagic : Reader κ Fault Unit := do
  let observed ← Reader.u32
  if observed = magic then return ()
  else Reader.fail (.badMagic observed)

def readVersion : Reader κ Fault (Nat × Nat) := do
  let minor ← Reader.u16
  let major ← Reader.u16
  return (minor, major)

/-- A whole class file; `code` names the attribute that holds bytecode. -/
def read (code : String) : Reader κ StagedFault Summary := do
  readMagic.mapFault (StagedFault.mk .magic)
  let (minor, major) ← readVersion.mapFault (StagedFault.mk .version)
  let pool ← Pool.read.mapFault (StagedFault.mk .pool)
  let header ← (Section.header pool).mapFault (StagedFault.mk .header)
  let _ ← Section.interfaces.mapFault (StagedFault.mk .interfaces)
  let _ ← Section.fields.mapFault (StagedFault.mk .fields)
  let methods ← (Section.methods pool code).mapFault (StagedFault.mk .methods)
  let _ ← Section.attributes.mapFault (StagedFault.mk .attributes)
  return ⟨header.className, major, minor, methods⟩

def decode (data : Bytes) (code : String) : Except StagedFault Summary :=
  (read code (ByteCursor.ofBytes data 0)).1

end Summary
end JarRank.ClassFile
