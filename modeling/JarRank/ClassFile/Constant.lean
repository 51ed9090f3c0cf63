import JarRank.Text.Utf8

/-!
# Constants

A class file opens with a table of constants. Three kinds are kept, because
names are resolved through them: texts, class references and pairs of a name and
a type. Of the other fourteen kinds only the kind is kept; each has a payload of
fixed width that is stepped over.
-/
namespace JarRank.ClassFile

/-- A constant whose payload is stepped over. -/
inductive Payload where
  | integer
  | float
  | long
  | double
  | string
  | field
  | method
  | interfaceMethod
  | methodHandle
  | methodType
  | dynamic
  | invokeDynamic
  | moduleInfo
  | packageInfo
  deriving DecidableEq, Repr

namespace Payload

/-- How many bytes follow the tag. -/
def width : Payload → Nat
  | integer | float | field | method | interfaceMethod | dynamic | invokeDynamic => 4
  | long | double => 8
  | string | methodType | moduleInfo | packageInfo => 2
  | methodHandle => 3

def isWide : Payload → Bool
  | long | double => true
  | _ => false

def label : Payload → String
  | integer => "INTEGER"
  | float => "FLOAT"
  | long => "LONG"
  | double => "DOUBLE"
  | string => "STRING"
  | field => "FIELDREF"
  | method => "METHODREF"
  | interfaceMethod => "INTERFACE_METHODREF"
  | methodHandle => "METHOD_HANDLE"
  | methodType => "METHOD_TYPE"
  | dynamic => "DYNAMIC"
  | invokeDynamic => "INVOKE_DYNAMIC"
  | moduleInfo => "MODULE"
  | packageInfo => "PACKAGE"

end Payload

/-- The seventeen kinds of constants. -/
inductive Kind where
  | utf8
  | classRef
  | nameAndType
  | payload (p : Payload)
  deriving DecidableEq, Repr

namespace Kind

/-- The kind that a tag byte announces, if it is assigned. -/
def ofTag? : Nat → Option Kind
  | 1 => some utf8
  | 3 => some (payload .integer)
  | 4 => some (payload .float)
  | 5 => some (payload .long)
  | 6 => some (payload .double)
  | 7 => some classRef
  | 8 => some (payload .string)
  | 9 => some (payload .field)
  | 10 => some (payload .method)
  | 11 => some (payload .interfaceMethod)
  | 12 => some nameAndType
  | 15 => some (payload .methodHandle)
  | 16 => some (payload .methodType)
  | 17 => some (payload .dynamic)
  | 18 => some (payload .invokeDynamic)
  | 19 => some (payload .moduleInfo)
  | 20 => some (payload .packageInfo)
  | _ => none

/-- The tag byte that announces a kind. -/
def tag : Kind → Nat
  | utf8 => 1
  | payload .integer => 3
  | payload .float => 4
  | payload .long => 5
  | payload .double => 6
  | classRef => 7
  | payload .string => 8
  | payload .field => 9
  | payload .method => 10
  | payload .interfaceMethod => 11
  | nameAndType => 12
  | payload .methodHandle => 15
  | payload .methodType => 16
  | payload .dynamic => 17
  | payload .invokeDynamic => 18
  | payload .moduleInfo => 19
  | payload .packageInfo => 20

@[simp] theorem ofTag?_tag (k : Kind) : ofTag? k.tag = some k := by
  rcases k with _ | _ | _ | p
  · rfl
  · rfl
  · rfl
  · cases p <;> rfl

theorem ofTag?_eq_some_iff {n : Nat} {k : Kind} : ofTag? n = some k ↔ n = k.tag := by
  constructor
  · intro h
    unfold ofTag? at h
    split at h <;> simp_all [tag] <;> subst h <;> rfl
  · rintro rfl
    exact ofTag?_tag k

def isWide : Kind → Bool
  | payload p => p.isWide
  | _ => false

def label : Kind → String
  | utf8 => "Utf8Entry"
  | classRef => "ClassRefEntry"
  | nameAndType => "NameAndTypeEntry"
  | payload p => p.label

end Kind

/-- What is kept of a constant. -/
inductive Constant where
  | utf8 (text : String)
  | classRef (nameIndex : Nat)
  | nameAndType (nameIndex descriptorIndex : Nat)
  | payload (p : Payload)
  deriving DecidableEq, Repr

def Constant.kind : Constant → Kind
  | utf8 _ => .utf8
  | classRef _ => .classRef
  | nameAndType _ _ => .nameAndType
  | payload p => .payload p

end JarRank.ClassFile
