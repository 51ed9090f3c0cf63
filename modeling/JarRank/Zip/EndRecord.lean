import JarRank.Text.Utf8

/-!
# The end record

An archive is read from its end. The end record is the last 22 bytes if they
look like one without a comment, and otherwise the last place of its signature
within reach of the longest comment. In front of it may stand a locator and a
64-bit record whose directory size and place then hold instead; if anything
about them is odd, the end record itself holds.
-/
namespace JarRank.Zip

inductive ContainerFault where
  | noEndRecord
  | severalDisks
  | directoryOffset
  | directoryTruncated
  | directorySignature
  | nameEncoding (flaw : Utf8.Flaw)
  | extraField (tag size : Nat)
  /-- A 64-bit field that the extra field should hold. -/
  | zip64Field (field : String)
  deriving DecidableEq, Repr

def ContainerFault.reason : ContainerFault → String
  | noEndRecord => "File is not a zip file"
  | severalDisks => "zipfiles that span multiple disks are not supported"
  | directoryOffset => "Bad offset for central directory"
  | directoryTruncated => "Truncated central directory"
  | directorySignature => "Bad magic number for central directory"
  | nameEncoding flaw => flaw.message
  | extraField tag size =>
      "Corrupt extra field " ++ Hex.lower 4 tag ++ " (size=" ++ toString size ++ ")"
  | zip64Field field => "Corrupt zip64 extra field. " ++ field ++ " not found."

def ContainerFault.message (f : ContainerFault) : String :=
  "Invalid JAR file: not a valid ZIP archive (" ++ f.reason ++ ")"

/-- The `length` bytes from `start` on, or as many as there are. -/
def window (data : ByteArray) (start length : Nat) : Bytes :=
  if data.size ≤ start then []
  else (data.extract start (min data.size (start + length))).toList

/-- The little-endian number in `width` bytes from `start` on. -/
def field (bs : Bytes) (start width : Nat) : Nat :=
  Bytes.littleEndian ((bs.drop start).take width)

/-- Where the directory of an archive is said to be. -/
structure EndRecord where
  position : Nat
  directorySize : Nat
  directoryOffset : Nat
  /-- Whether a 64-bit record stands in front. -/
  isZip64 : Bool
  deriving DecidableEq, Repr

namespace EndRecord

def signature : Bytes := [0x50, 0x4B, 5, 6]

def locatorSignature : Bytes := [0x50, 0x4B, 6, 7]

def zip64Signature : Bytes := [0x50, 0x4B, 6, 6]

def size : Nat := 22

def locatorSize : Nat := 20
def zip64Size : Nat := 56

/-- The record that `bs` holds, which begins at `position`. -/
def ofBytes (bs : Bytes) (position : Nat) : EndRecord :=
  ⟨position, field bs 12 4, field bs 16 4, false⟩

/-- The record as a 64-bit record in front of it corrects it. -/
def withZip64 (data : ByteArray) (r : EndRecord) : Except ContainerFault EndRecord :=
  let locator := window data (r.position - locatorSize) locatorSize
  if locator.length ≠ locatorSize ∨ locator.take 4 ≠ locatorSignature then .ok r
  else if field locator 4 4 ≠ 0 ∨ 1 < field locator 16 4 then .error .severalDisks
  else
    let wide := window data (r.position - locatorSize - zip64Size) zip64Size
    if wide.length ≠ zip64Size ∨ wide.take 4 ≠ zip64Signature then .ok r
    else .ok ⟨r.position, field wide 40 8, field wide 48 8, true⟩

def find (data : ByteArray) : Except ContainerFault EndRecord :=
  let last := window data (data.size - size) size
  if last.length = size ∧ last.take 4 = signature ∧ last.drop 20 = [0, 0] then
    withZip64 data (ofBytes last (data.size - size))
  else
    let start := data.size - (65536 + size)
    let tail := window data start (65536 + size)
    match Bytes.lastIndexOf? signature tail with
    | none => .error .noEndRecord
    | some i =>
        let record := (tail.drop i).take size
        if record.length ≠ size then .error .noEndRecord
        else withZip64 data (ofBytes record (start + i))

end EndRecord
end JarRank.Zip
