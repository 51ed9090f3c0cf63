import JarRank.Text.CodePage437
import JarRank.Zip.EndRecord

/-!
# The central directory

One header for each member, in the order in which members are listed. Places of
members are given as offsets from a start that the archive may not begin with;
the difference follows from where the directory really is. A member may use the
bytes from its place up to the next member behind it, or up to the directory.

A member's name is kept as it is written. Its path is the name up to the first
NUL.
-/
namespace JarRank.Zip

structure Member where
  name : String
  flags : Nat
  method : Nat
  checksum : Nat
  /-- How many bytes it takes in the archive. -/
  packedSize : Nat
  size : Nat
  attributes : Nat
  /-- Where its own header begins. -/
  offset : Int
  /-- Where its bytes have to end. -/
  limit : Int
  deriving DecidableEq, Repr

/-- The name up to the first NUL. -/
def Member.path (m : Member) : String := String.ofList (m.name.toList.takeWhile (· ≠ '\x00'))

/-- Whether the path names a directory. -/
def Member.isDirectory (m : Member) : Bool := m.path.toList.getLast? == some '/'

/-- Why an archive is not opened: either it is none, or it asks for a later version
of the format than is known. -/
inductive OpenFault where
  | container (fault : ContainerFault)
  | version (needed : Nat)
  deriving DecidableEq, Repr

def OpenFault.message : OpenFault → String
  | container fault => fault.message
  | version needed => "zip file version " ++ toString (needed / 10) ++ "." ++ toString (needed % 10)

namespace Directory

def signature : Bytes := [0x50, 0x4B, 1, 2]

def headerSize : Nat := 46

/-- The latest version of the format that is known, in tenths. -/
def knownVersion : Nat := 63

/-- The flag that says that a name is UTF-8. -/
def isUtf8 (flags : Nat) : Bool := flags / 0x800 % 2 == 1

/-- A name, in the encoding that the flags declare. -/
def decodeName (flags : Nat) (raw : Bytes) : Except Utf8.Flaw String :=
  if isUtf8 flags then Utf8.decode raw else .ok (CodePage437.decode raw)

/-- The three numbers that a 64-bit extra field may hold instead of the header. -/
structure Extent where
  size : Nat
  packedSize : Nat
  offset : Nat

/-- The number in a header, or the next eight bytes if the header's is a marker. -/
def widen (label : String) (isMarker : Bool) (n : Nat) (data : Bytes) :
    Except ContainerFault (Nat × Bytes) :=
  if isMarker then
    match Bytes.split? 8 data with
    | some (front, rest) => .ok (Bytes.littleEndian front, rest)
    | none => .error (.zip64Field label)
  else .ok (n, data)

/-- The extent as a 64-bit extra field corrects it. -/
def Extent.corrected (x : Extent) (data : Bytes) : Except ContainerFault Extent := do
  let (size, data) ←
    widen "File size" (x.size == 0xFFFFFFFF || x.size == 0xFFFFFFFFFFFFFFFF) x.size data
  let (packedSize, data) ← widen "Compress size" (x.packedSize == 0xFFFFFFFF) x.packedSize data
  let (offset, _) ← widen "Header offset" (x.offset == 0xFFFFFFFF) x.offset data
  return ⟨size, packedSize, offset⟩

/-- The extent as all extra fields correct it, one after the other. -/
def Extent.withExtra : (fuel : Nat) → Bytes → Extent → Except ContainerFault Extent
  | fuel + 1, t0 :: t1 :: n0 :: n1 :: rest, x => do
      let tag := Bytes.littleEndian [t0, t1]
      let length := Bytes.littleEndian [n0, n1]
      match Bytes.split? length rest with
      | none => .error (.extraField tag length)
      | some (data, rest) =>
          let x ← if tag = 1 then x.corrected data else .ok x
          Extent.withExtra fuel rest x
  | _, _, x => .ok x

/-- The member that a header, its name and its extra fields describe, before its
limit is known. Offsets are taken from `base`. -/
def member (header rawName extra : Bytes) (base : Int) : Except OpenFault Member := do
  let flags := field header 8 2
  let name ← (decodeName flags rawName).mapError fun flaw => .container (.nameEncoding flaw)
  let needed := field header 6 1
  if knownVersion < needed then .error (.version needed)
  else
    let x : Extent := ⟨field header 24 4, field header 20 4, field header 42 4⟩
    let x ← (x.withExtra extra.length extra).mapError .container
    return ⟨name, flags, field header 10 2, field header 16 4, x.packedSize, x.size,
      field header 38 4, base + x.offset, 0⟩

/-- The members whose headers fill the rest of the directory. -/
def members (base : Int) : (fuel : Nat) → Bytes → List Member → Except OpenFault (List Member)
  | 0, _, acc => .ok acc.reverse
  | fuel + 1, bs, acc =>
      if bs.isEmpty then .ok acc.reverse
      else
        match Bytes.split? headerSize bs with
        | none => .error (.container .directoryTruncated)
        | some (header, rest) =>
            if header.take 4 ≠ signature then .error (.container .directorySignature)
            else
              let nameLength := field header 28 2
              let extraLength := field header 30 2
              let behindName := rest.drop nameLength
              match member header (rest.take nameLength) (behindName.take extraLength) base with
              | .error e => .error e
              | .ok m =>
                  members base fuel ((behindName.drop extraLength).drop (field header 32 2)) (m :: acc)

/-- The members with their limits: from the last place in the archive to the first,
each ends where the one behind it begins, and the last ends at the directory. -/
def withLimits (start : Int) (ms : List Member) : List Member :=
  let order := ms.zipIdx.mergeSort fun a b => b.1.offset ≤ a.1.offset
  let limits := order.zip (start :: order.map fun m => m.1.offset)
  let byIndex := limits.foldl (fun a m => a.setIfInBounds m.1.2 m.2) (Array.replicate ms.length start)
  (ms.zip byIndex.toList).map fun (m, limit) => { m with limit }

def read (data : ByteArray) : Except OpenFault (List Member) := do
  let record ← (EndRecord.find data).mapError .container
  let wide : Int := if record.isZip64 then EndRecord.zip64Size + EndRecord.locatorSize else 0
  let start : Int := record.position - record.directorySize - wide
  if start < 0 then .error (.container .directoryOffset)
  else
    let bs := window data start.toNat record.directorySize
    let ms ← members (start - record.directoryOffset) (bs.length + 1) bs []
    return withLimits start ms

end Directory
end JarRank.Zip
