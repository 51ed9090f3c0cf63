import JarRank.ClassFile.Summary

/-!
# Profiles

A profile says which members of an archive are class files, which attribute of a
method holds its bytecode, and how many methods are shown where nobody asks for
another number.
-/
namespace JarRank

structure Profile where
  id : String := "jar-classfile-code-length"
  /-- How the path of a class file ends. -/
  classSuffix : String := ".class"
  codeAttribute : String := ClassFile.codeAttribute
  defaultTop : Int := 10
  deriving DecidableEq, Repr

namespace Profile

def standard : Profile := {}

/-- Whether a member is a class file. -/
def selects (p : Profile) (path : String) (isDirectory : Bool) : Bool :=
  !isDirectory && p.classSuffix.toList.isSuffixOf path.toList

end Profile
end JarRank
