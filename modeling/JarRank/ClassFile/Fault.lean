import JarRank.ClassFile.Constant

/-!
# What can be wrong with a class file

Four causes, each with the facts that its message states, and the section of the
file in which a cause was met.
-/
namespace JarRank.ClassFile

inductive Expected where
  | utf8
  | classRef
  deriving DecidableEq, Repr

def Expected.label : Expected → String
  | utf8 => "UTF8"
  | classRef => "class"

inductive Finding where
  | outOfRange
  | emptySlot
  | holds (kind : Kind)
  deriving DecidableEq, Repr

def Finding.label : Finding → String
  | outOfRange => "out-of-range index"
  | emptySlot => "empty slot"
  | holds kind => kind.label

def magic : Nat := 0xCAFEBABE

inductive Fault where
  /-- The file starts with other bytes than `magic`. -/
  | badMagic (observed : Nat)
  /-- `needed` bytes were asked for at `offset`, where `available` were left. -/
  | truncated (offset needed : Int) (available : Nat)
  /-- The tag at `offset`, of the constant at `index`, is not assigned. -/
  | unknownTag (tag index : Nat) (offset : Int)
  /-- The slot at `index` is not what was expected. -/
  | badReference (index : Int) (expected : Expected) (found : Finding)
  deriving DecidableEq, Repr

namespace Fault

def kind : Fault → String
  | badMagic _ => "BAD_MAGIC"
  | truncated _ _ _ => "TRUNCATED"
  | unknownTag _ _ _ => "UNKNOWN_CONSTANT_TAG"
  | badReference _ _ _ => "INVALID_REFERENCE"

def message : Fault → String
  | badMagic observed =>
      "Invalid class file: expected magic number 0x" ++ Hex.upper 8 magic ++ ", got 0x" ++
        Hex.upper 8 observed
  | truncated offset needed available =>
      "Truncated input at offset " ++ toString offset ++ ": need " ++ toString needed ++
        " bytes, " ++ toString available ++ " available"
  | unknownTag tag index offset =>
      "Unknown constant pool tag: " ++ toString tag ++ " at index " ++ toString index ++
        " (offset " ++ toString offset ++ ")"
  | badReference index expected found =>
      "Invalid " ++ expected.label ++ " reference at index " ++ toString index ++ ": found " ++
        found.label

end Fault

inductive Stage where
  | magic
  | version
  | pool
  | header
  | interfaces
  | fields
  | methods
  | attributes
  deriving DecidableEq, Repr

def Stage.label : Stage → String
  | magic => "EXPECT_MAGIC"
  | version => "EXPECT_VERSION"
  | pool => "EXPECT_POOL"
  | header => "EXPECT_HEADER_AND_CLASS_NAME"
  | interfaces => "EXPECT_INTERFACES"
  | fields => "EXPECT_FIELDS"
  | methods => "EXPECT_METHODS"
  | attributes => "EXPECT_CLASS_ATTRIBUTES"

structure StagedFault where
  stage : Stage
  fault : Fault
  deriving DecidableEq, Repr

end JarRank.ClassFile
