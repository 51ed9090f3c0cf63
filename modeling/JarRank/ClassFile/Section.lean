import JarRank.ClassFile.Pool

/-!
# The sections behind the pool

Each section is present even when it is empty, and each is read in order. Of
interfaces, fields and attributes only the extent matters: an attribute declares
its own length, so that unknown ones are stepped over like known ones.

Of a method its name, its descriptor and the length of its bytecode are kept.
The body of its code attribute is taken as a slice of the declared length and
read by a cursor of its own, so that the main cursor ends behind the declared
length whatever the body holds. A method without such an attribute has size
zero, and of several the last counts.
-/
namespace JarRank.ClassFile

structure Header where
  accessFlags : Nat
  /-- The name with `/` between its parts. -/
  className : String
  superClassIndex : Nat
  deriving DecidableEq, Repr

structure Method where
  name : String
  descriptor : String
  size : Nat
  deriving DecidableEq, Repr

namespace Section

variable {κ : Type} [Source κ]

/-- Access flags, this class and its superclass; the name is resolved last. -/
def header (pool : Pool) : Reader κ Fault Header := do
  let accessFlags ← Reader.u16
  let thisClass ← Reader.u16
  let superClass ← Reader.u16
  let className ← Reader.ofExcept (pool.className thisClass)
  return ⟨accessFlags, className, superClass⟩

def interfaces : Reader κ Fault Nat := do
  let count ← Reader.u16
  Reader.advance (2 * count)
  return count

def anyAttribute : Reader κ Fault Unit := do
  Reader.advance 2
  let length ← Reader.u32
  Reader.advance length

def attributes : Reader κ Fault Nat := do
  let count ← Reader.u16
  let _ ← Reader.times count anyAttribute
  return count

/-- One field: flags, name and descriptor in six bytes, then attributes. -/
def field : Reader κ Fault Unit := do
  Reader.advance 6
  let _ ← attributes

def fields : Reader κ Fault Nat := do
  let count ← Reader.u16
  let _ ← Reader.times count field
  return count

/-- The length of the bytecode, behind two words about stack and locals. -/
def codeLength : Reader κ Fault Nat := do
  Reader.advance 2
  Reader.advance 2
  Reader.u32

/-- One attribute of a method; the length of the bytecode if it is the code. -/
def methodAttribute (pool : Pool) (code : String) : Reader κ Fault (Option Nat) := do
  let nameIndex ← Reader.u16
  let length ← Reader.u32
  let name ← Reader.ofExcept (pool.text nameIndex)
  if name = code then
    let offset ← Reader.position
    let body ← Reader.take length
    let size ← Reader.ofExcept (codeLength (Source.ofBytes body offset : κ)).1
    return some size
  else
    Reader.advance length
    return none

/-- The last size that was found, or zero. -/
def lastSize (sizes : List (Option Nat)) : Nat :=
  sizes.foldl (fun size found => found.getD size) 0

def methodAttributes (pool : Pool) (code : String) : Reader κ Fault Nat := do
  let count ← Reader.u16
  let sizes ← Reader.times count (methodAttribute pool code)
  return lastSize sizes

/-- One method: flags, name, descriptor, both resolved, then attributes. -/
def method (pool : Pool) (code : String) : Reader κ Fault Method := do
  Reader.advance 2
  let nameIndex ← Reader.u16
  let descriptorIndex ← Reader.u16
  let name ← Reader.ofExcept (pool.text nameIndex)
  let descriptor ← Reader.ofExcept (pool.text descriptorIndex)
  let size ← methodAttributes pool code
  return ⟨name, descriptor, size⟩

def methods (pool : Pool) (code : String) : Reader κ Fault (List Method) := do
  let count ← Reader.u16
  Reader.times count (method pool code)

end Section
end JarRank.ClassFile
