import JarRank.ClassFile.Reader

/-!
# The constant pool

The table of constants, numbered from one. Slot zero is empty, and so is the
slot after each wide constant, which belongs to that constant and resolves to
nothing. A wide constant in the last declared place makes the table one slot
longer than declared.
-/
namespace JarRank.ClassFile

structure Pool where
  slots : Array (Option Constant)
  deriving DecidableEq, Repr

namespace Pool

def empty : Pool := ⟨#[none]⟩

def size (p : Pool) : Nat := p.slots.size

/-- The slot at an index; a negative index counts from the end. -/
def slot? (p : Pool) (i : Int) : Option (Option Constant) :=
  if 0 ≤ i then p.slots[i.toNat]?
  else if 0 ≤ i + p.size then p.slots[(i + p.size).toNat]?
  else none

/-- What stands at an index that a class file names. -/
def find (p : Pool) (i : Int) : Except Finding Constant :=
  if i ≤ 0 then .error .outOfRange
  else
    match p.slots[i.toNat]? with
    | none => .error .outOfRange
    | some none => .error .emptySlot
    | some (some k) => .ok k

def text (p : Pool) (i : Int) : Except Fault String :=
  match p.find i with
  | .ok (.utf8 s) => .ok s
  | .ok k => .error (.badReference i .utf8 (.holds k.kind))
  | .error found => .error (.badReference i .utf8 found)

/-- The name of the class that the constant at an index refers to. -/
def className (p : Pool) (i : Int) : Except Fault String :=
  match p.find i with
  | .ok (.classRef nameIndex) => p.text nameIndex
  | .ok k => .error (.badReference i .classRef (.holds k.kind))
  | .error found => .error (.badReference i .classRef found)

variable {κ : Type} [Source κ]

def readPayload : Kind → Reader κ Fault Constant
  | .utf8 => do
      let length ← Reader.u16
      let raw ← Reader.take length
      return .utf8 (Utf8.decodeLossy raw)
  | .classRef => do return .classRef (← Reader.u16)
  | .nameAndType => do
      let nameIndex ← Reader.u16
      let descriptorIndex ← Reader.u16
      return .nameAndType nameIndex descriptorIndex
  | .payload p => do
      Reader.advance p.width
      return .payload p

/-- The constant that belongs at `index`: its tag, then its payload. -/
def readConstant (index : Nat) : Reader κ Fault Constant := do
  let offset ← Reader.position
  let tag ← Reader.u8
  match Kind.ofTag? tag with
  | none => Reader.fail (.unknownTag tag index offset)
  | some kind => readPayload kind

/-- Fills the slots that are left to fill. A slot is reserved if the constant
before it is wide; such a slot takes no bytes, also behind the last one. -/
def fill : (left : Nat) → (reserved : Bool) → Array (Option Constant) →
    κ → Except Fault Pool × κ
  | 0, false, slots, c => (.ok ⟨slots⟩, c)
  | 0, true, slots, c => (.ok ⟨slots.push none⟩, c)
  | left + 1, true, slots, c => fill left false (slots.push none) c
  | left + 1, false, slots, c =>
      match readConstant slots.size c with
      | (.ok k, c) => fill left k.kind.isWide (slots.push (some k)) c
      | (.error e, c) => (.error e, c)

/-- The declared count, then constants up to it. -/
def read : Reader κ Fault Pool := do
  let declared ← Reader.u16
  fill (declared - 1) false empty.slots

end Pool
end JarRank.ClassFile
