import JarRank.ClassFile.Summary

/-!
# Traces

A traced reader also tells what it has made of each byte that it passed: the value
was used, or the byte was only stepped over. There is one mark for each byte that was
passed, so that a byte without a mark stands behind the point where the reader stopped,
whether it failed there or not.

The decoder is traced section by section. Stepped over are the payloads of constants
of which only the kind is kept and both indices of a name and type; the access flags
and the superclass of the class; the interfaces; of a field its three words, and of an
attribute of a field or of the class its name and its body; of a method its access
flags, and the bodies of its attributes, except that four bytes are used of the code.
Everything else that is passed is used: counts, lengths, tags, texts, versions and the
indices through which names are resolved.
-/
namespace JarRank.ClassFile

namespace Cursor

/-- The start of the next bytes alone. -/
def slice (c : Cursor) (width : Nat) : Cursor := ofBytes (c.rest.take width) c.position

theorem remaining_slice_le (c : Cursor) (width : Nat) : (c.slice width).remaining ≤ width :=
  List.length_take_le ..

end Cursor

/-- What has been made of a byte that was passed. -/
inductive Mark where
  | used
  | skipped
  deriving DecidableEq, Repr

/-- A reader with a mark for each byte that it passes. -/
structure Traced (ε α : Type) where
  run : Reader Cursor ε α
  marks : Cursor → List Mark
  stops : ∀ c, (run c).2 = c.forward (marks c).length
  length_marks_le : ∀ c, (marks c).length ≤ c.remaining

namespace Traced

variable {ε ε' α β : Type}

/-- The marks of a second reader, which begins where a first one has stopped with a result. -/
def marksBehind (f : α → Traced ε β) : Except ε α × Cursor → List Mark
  | (.ok a, d) => (f a).marks d
  | (.error _, _) => []

protected def pure (a : α) : Traced ε α where
  run := Reader.pure a
  marks _ := []
  stops c := (Cursor.forward_zero c).symm
  length_marks_le _ := Nat.zero_le _

protected def bind (t : Traced ε α) (f : α → Traced ε β) : Traced ε β where
  run := t.run >>= fun a => (f a).run
  marks c := t.marks c ++ marksBehind f (t.run c)
  stops c := by
    have ht := t.stops c
    rw [Reader.bind_apply, List.length_append, ← Cursor.forward_forward, ← ht]
    rcases t.run c with ⟨_ | a, d⟩
    · exact (Cursor.forward_zero d).symm
    · exact (f a).stops d
  length_marks_le c := by
    have ht := t.stops c
    have hl := t.length_marks_le c
    have hd : (t.run c).2.remaining = c.remaining - (t.marks c).length := by
      rw [ht, Cursor.remaining_forward]
    have hf : (marksBehind f (t.run c)).length ≤ (t.run c).2.remaining := by
      rcases t.run c with ⟨_ | a, d⟩
      · exact Nat.zero_le _
      · exact (f a).length_marks_le d
    rw [List.length_append]
    omega

instance : Monad (Traced ε) where
  pure := Traced.pure
  bind := Traced.bind

/-- A reader that does not move. -/
def still (r : Reader Cursor ε α) (h : ∀ c, (r c).2 = c) : Traced ε α where
  run := r
  marks _ := []
  stops c := by rw [h, List.length_nil, Cursor.forward_zero]
  length_marks_le _ := Nat.zero_le _

def position : Traced ε Int := still Reader.position fun _ => rfl

def ofExcept (x : Except ε α) : Traced ε α :=
  still (Reader.ofExcept x) fun _ => by cases x <;> rfl

def mapFault (f : ε → ε') (t : Traced ε α) : Traced ε' α where
  run := t.run.mapFault f
  marks := t.marks
  stops c := by
    rw [← t.stops c, Reader.mapFault]
    rcases t.run c with ⟨_ | a, d⟩ <;> rfl
  length_marks_le := t.length_marks_le

/-- The next `width` bytes, or a fault if there are not so many. -/
def piece (width : Nat) (marks : Cursor → List Mark) (h : ∀ c, (marks c).length = width)
    (read : Cursor → Except Fault α) : Traced Fault α where
  run c :=
    if width ≤ c.remaining then (read c, c.forward width)
    else (.error (.truncated c.position width c.remaining), c)
  marks c := if width ≤ c.remaining then marks c else []
  stops c := by
    by_cases hw : width ≤ c.remaining
    · simp [hw, h]
    · simp [hw]
  length_marks_le c := by
    by_cases hw : width ≤ c.remaining
    · simp [hw, h]
    · simp [hw]

/-- The next bytes, all with one mark. -/
def uniform (m : Mark) (width : Nat) (read : Bytes → α) : Traced Fault α :=
  piece width (fun _ => List.replicate width m) (fun _ => List.length_replicate)
    fun c => .ok (read (c.rest.take width))

def skip (width : Nat) : Traced Fault Unit := uniform .skipped width fun _ => ()

def number (m : Mark) (width : Nat) : Traced Fault Nat := uniform m width Bytes.bigEndian

def take (width : Nat) : Traced Fault Bytes := uniform .used width id

/-- The next bytes, which are read by a cursor of their own. Those behind the point where that
one stops are skipped. -/
def slice (width : Nat) (t : Traced Fault α) : Traced Fault α :=
  piece width
    (fun c => t.marks (c.slice width) ++
      List.replicate (width - (t.marks (c.slice width)).length) .skipped)
    (fun c => by
      have hl := t.length_marks_le (c.slice width)
      have hw := c.remaining_slice_le width
      rw [List.length_append, List.length_replicate]
      omega)
    fun c => (t.run (c.slice width)).1

def times (t : Traced ε α) : Nat → Traced ε (List α)
  | 0 => pure []
  | n + 1 => do
      let a ← t
      let as ← times t n
      return a :: as

/-! ### The table of constants -/

def payload : Kind → Traced Fault Constant
  | .utf8 => do
      let length ← number .used 2
      let raw ← take length
      return .utf8 (Utf8.decodeLossy raw)
  | .classRef => do return .classRef (← number .used 2)
  | .nameAndType => do
      let nameIndex ← number .skipped 2
      let descriptorIndex ← number .skipped 2
      return .nameAndType nameIndex descriptorIndex
  | .payload p => do
      skip p.width
      return .payload p

def constant (index : Nat) : Traced Fault Constant := do
  let offset ← position
  let tag ← number .used 1
  match Kind.ofTag? tag with
  | none => ofExcept (.error (.unknownTag tag index offset))
  | some kind => payload kind

def fill : (left : Nat) → (reserved : Bool) → Array (Option Constant) → Traced Fault Pool
  | 0, false, slots => pure ⟨slots⟩
  | 0, true, slots => pure ⟨slots.push none⟩
  | left + 1, true, slots => fill left false (slots.push none)
  | left + 1, false, slots => do
      let k ← constant slots.size
      fill left k.kind.isWide (slots.push (some k))

def pool : Traced Fault Pool := do
  let declared ← number .used 2
  fill (declared - 1) false Pool.empty.slots

/-! ### The sections behind it -/

def header (p : Pool) : Traced Fault Header := do
  let accessFlags ← number .skipped 2
  let thisClass ← number .used 2
  let superClass ← number .skipped 2
  let className ← ofExcept (p.className thisClass)
  return ⟨accessFlags, className, superClass⟩

def interfaces : Traced Fault Nat := do
  let count ← number .used 2
  skip (2 * count)
  return count

def anyAttribute : Traced Fault Unit := do
  skip 2
  let length ← number .used 4
  skip length

def attributes : Traced Fault Nat := do
  let count ← number .used 2
  let _ ← times anyAttribute count
  return count

def field : Traced Fault Unit := do
  skip 6
  let _ ← attributes

def fields : Traced Fault Nat := do
  let count ← number .used 2
  let _ ← times field count
  return count

/-- Two words about stack and locals are skipped. -/
def codeLength : Traced Fault Nat := do
  skip 2
  skip 2
  number .used 4

def methodAttribute (p : Pool) (code : String) : Traced Fault (Option Nat) := do
  let nameIndex ← number .used 2
  let length ← number .used 4
  let name ← ofExcept (p.text nameIndex)
  if name = code then
    let size ← slice length codeLength
    return some size
  else
    skip length
    return none

def methodAttributes (p : Pool) (code : String) : Traced Fault Nat := do
  let count ← number .used 2
  let sizes ← times (methodAttribute p code) count
  return Section.lastSize sizes

def method (p : Pool) (code : String) : Traced Fault Method := do
  skip 2
  let nameIndex ← number .used 2
  let descriptorIndex ← number .used 2
  let name ← ofExcept (p.text nameIndex)
  let descriptor ← ofExcept (p.text descriptorIndex)
  let size ← methodAttributes p code
  return ⟨name, descriptor, size⟩

def methods (p : Pool) (code : String) : Traced Fault (List Method) := do
  let count ← number .used 2
  times (method p code) count

/-! ### The whole file -/

def magic : Traced Fault Unit := do
  let observed ← number .used 4
  if observed = ClassFile.magic then return ()
  else ofExcept (.error (.badMagic observed))

def version : Traced Fault (Nat × Nat) := do
  let minor ← number .used 2
  let major ← number .used 2
  return (minor, major)

def summary (code : String) : Traced StagedFault Summary := do
  magic.mapFault (StagedFault.mk .magic)
  let (minor, major) ← version.mapFault (StagedFault.mk .version)
  let p ← pool.mapFault (StagedFault.mk .pool)
  let h ← (header p).mapFault (StagedFault.mk .header)
  let _ ← interfaces.mapFault (StagedFault.mk .interfaces)
  let _ ← fields.mapFault (StagedFault.mk .fields)
  let ms ← (methods p code).mapFault (StagedFault.mk .methods)
  let _ ← attributes.mapFault (StagedFault.mk .attributes)
  return ⟨h.className, major, minor, ms⟩

end Traced

/-- The byte at a position is stepped over when a file is decoded, or the decoder stops
before it. -/
def Summary.Skips (data : Bytes) (code : String) (i : Nat) : Prop :=
  ((Traced.summary code).marks (Cursor.ofBytes data 0))[i]? ≠ some .used

end JarRank.ClassFile
