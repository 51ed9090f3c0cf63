import JarRank.ClassFile.Summary

/-!
# Layouts

A layout is a class file taken apart into its words, constants and attributes,
with nothing left out. Its bytes are written table by table, each table behind
its count and each body behind its length. What a layout says of the class is
told from its parts, without its bytes: which class it is, and which methods it
has. References are resolved in the order of the file, and only those of the
class itself and of the methods.
-/
namespace JarRank.ClassFile

inductive Item where
  | utf8 (raw : Bytes)
  | classRef (nameIndex : UInt16)
  | nameAndType (nameIndex descriptorIndex : UInt16)
  | payload (p : Payload) (raw : Bytes)
  deriving DecidableEq, Repr

structure Attribute where
  nameIndex : UInt16
  body : Bytes
  deriving DecidableEq, Repr

structure Member where
  accessFlags : UInt16
  nameIndex : UInt16
  descriptorIndex : UInt16
  attributes : List Attribute
  deriving DecidableEq, Repr

structure Layout where
  minor : UInt16
  major : UInt16
  /-- The count that stands before the constants. -/
  declared : UInt16
  constants : List Item
  accessFlags : UInt16
  thisClass : UInt16
  superClass : UInt16
  interfaces : List UInt16
  fields : List Member
  methods : List Member
  attributes : List Attribute
  deriving DecidableEq, Repr

namespace Layout

def word (w : UInt16) : Bytes := Bytes.ofNumber 2 w.toNat

/-- A table behind its count. -/
def table {α : Type} (bytes : α → Bytes) (rows : List α) : Bytes :=
  Bytes.ofNumber 2 rows.length ++ rows.flatMap bytes

@[simp] theorem length_word (w : UInt16) : (word w).length = 2 := Bytes.length_ofNumber ..

@[simp] theorem bigEndian_word (w : UInt16) : Bytes.bigEndian (word w) = w.toNat :=
  Bytes.bigEndian_ofNumber_of_lt w.toNat_lt

end Layout

namespace Item
open Layout (word)

def kind : Item → Kind
  | utf8 _ => .utf8
  | classRef _ => .classRef
  | nameAndType _ _ => .nameAndType
  | payload p _ => .payload p

def kept : Item → Constant
  | utf8 raw => .utf8 (Utf8.decodeLossy raw)
  | classRef n => .classRef n.toNat
  | nameAndType n d => .nameAndType n.toNat d.toNat
  | payload p _ => .payload p

def slotWidth (i : Item) : Nat := if i.kind.isWide then 2 else 1

/-- The bytes behind the tag. -/
def content : Item → Bytes
  | utf8 raw => Bytes.ofNumber 2 raw.length ++ raw
  | classRef n => word n
  | nameAndType n d => word n ++ word d
  | payload _ raw => raw

def bytes (i : Item) : Bytes := UInt8.ofNat i.kind.tag :: i.content

/-- Whether a constant can be written: a text has less than 65536 bytes, and any other
payload as many as its kind demands. -/
def Fits : Item → Prop
  | utf8 raw => raw.length < 0x10000
  | payload p raw => raw.length = p.width
  | _ => True

/-- The slots that a constant takes, the first for itself. -/
def slots (i : Item) : List (Option Constant) :=
  some i.kept :: if i.kind.isWide then [none] else []

@[simp] theorem kind_kept (i : Item) : i.kept.kind = i.kind := by cases i <;> rfl

@[simp] theorem length_slots (i : Item) : i.slots.length = i.slotWidth := by
  unfold slots slotWidth
  split <;> rfl

end Item

namespace Attribute
open Layout (word)

def bytes (a : Attribute) : Bytes := word a.nameIndex ++ Bytes.ofNumber 4 a.body.length ++ a.body

def Fits (a : Attribute) : Prop := a.body.length < 0x100000000

/-- The length of bytecode that a body declares behind its first four bytes. -/
def codeLength (a : Attribute) : Nat := Bytes.bigEndian ((a.body.drop 4).take 4)

end Attribute

namespace Member
open Layout (word table)

def bytes (m : Member) : Bytes :=
  word m.accessFlags ++ word m.nameIndex ++ word m.descriptorIndex ++
    table Attribute.bytes m.attributes

def Fits (m : Member) : Prop := m.attributes.length < 0x10000 ∧ ∀ a ∈ m.attributes, a.Fits

/-- The length of bytecode that an attribute gives, if it is the code. -/
def attributeSize (pool : Pool) (code : String) (a : Attribute) : Except Fault (Option Nat) := do
  let name ← pool.text a.nameIndex.toNat
  return if name = code then some a.codeLength else none

/-- The method that a member is, with its references resolved in their order. -/
def method (pool : Pool) (code : String) (m : Member) : Except Fault Method := do
  let name ← pool.text m.nameIndex.toNat
  let descriptor ← pool.text m.descriptorIndex.toNat
  let sizes ← m.attributes.mapM (attributeSize pool code)
  return ⟨name, descriptor, Section.lastSize sizes⟩

/-- Whether all code of a member is long enough to declare a length. -/
def CodeFits (pool : Pool) (code : String) (m : Member) : Prop :=
  ∀ a ∈ m.attributes, pool.text a.nameIndex.toNat = .ok code → 8 ≤ a.body.length

end Member

namespace Layout

def bytes (l : Layout) : Bytes :=
  Bytes.ofNumber 4 magic ++ word l.minor ++ word l.major ++
    word l.declared ++ l.constants.flatMap Item.bytes ++
    word l.accessFlags ++ word l.thisClass ++ word l.superClass ++
    table word l.interfaces ++ table Member.bytes l.fields ++ table Member.bytes l.methods ++
    table Attribute.bytes l.attributes

/-- The table of constants, slot zero included. -/
def pool (l : Layout) : Pool := ⟨(none :: l.constants.flatMap Item.slots).toArray⟩

/-- Whether a count goes exactly with some constants: the last of them begins before the
count is used up, and behind it nothing is left to fill. -/
def Declares (declared : Nat) : List Item → Prop
  | [] => declared ≤ 1
  | i :: is =>
      let taken := ((i :: is).flatMap Item.slots).length
      declared ≤ 1 + taken ∧ 1 + taken < declared + ((i :: is).getLast (by simp)).slotWidth

/-- Whether a layout can be written so that all counts and lengths are what they count. -/
structure Fits (l : Layout) : Prop where
  declared : Declares l.declared.toNat l.constants
  constants : ∀ i ∈ l.constants, i.Fits
  interfaces : l.interfaces.length < 0x10000
  fields : l.fields.length < 0x10000 ∧ ∀ m ∈ l.fields, m.Fits
  methods : l.methods.length < 0x10000 ∧ ∀ m ∈ l.methods, m.Fits
  attributes : l.attributes.length < 0x10000 ∧ ∀ a ∈ l.attributes, a.Fits

def CodeFits (code : String) (l : Layout) : Prop := ∀ m ∈ l.methods, m.CodeFits l.pool code

/-- What a layout says of the class: the first reference that does not resolve, or its summary. -/
def summary (code : String) (l : Layout) : Except StagedFault Summary := do
  let name ← (l.pool.className l.thisClass.toNat).mapError (StagedFault.mk .header)
  let methods ← (l.methods.mapM (Member.method l.pool code)).mapError (StagedFault.mk .methods)
  return ⟨name, l.major.toNat, l.minor.toNat, methods⟩

end Layout
end JarRank.ClassFile
