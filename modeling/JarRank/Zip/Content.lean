import JarRank.Bytes.Checksum
import JarRank.Deflate.Inflate
import JarRank.Zip.Description

/-!
# The content of a member

A member has a header of its own at its place in the archive. It is read only if
that header agrees with the directory, the member does not run into the next one
and is neither encrypted nor packed in a way that is not known. The unpacked
bytes are cut to the size that the directory gives, and checked.

Deflated streams are inflated here. Two other ways of packing belong to libraries
that need not be there: what such a library makes of packed bytes is given.

What is wrong with a member is a matter of that member alone. Beside that there
are places that cannot be sought, a name in the header that cannot be read, and
what the two libraries complain about; these end whatever is being done with the
archive.
-/
namespace JarRank.Zip

/-- A way of packing that a library of its own undoes. -/
inductive Packing where
  | bzip2
  | lzma
  deriving DecidableEq, Repr

namespace Packing

/-- The packing that a method of the directory stands for. -/
def ofMethod? (method : Nat) : Option Packing :=
  if method = 12 then some bzip2 else if method = 14 then some lzma else none

/-- The name of the library. -/
def library : Packing → String
  | bzip2 => "bz2"
  | lzma => "lzma"

end Packing

/-- What a library makes of packed bytes. -/
inductive Unpacked where
  /-- The bytes that were packed, and whether the stream has ended in the bytes that were given. -/
  | content (out : ByteArray) (ended : Bool)
  | damaged (message : String)

/-- The libraries that are there. -/
structure Unpackers where
  bzip2? : Option (Bytes → Unpacked)
  lzma? : Option (Bytes → Unpacked)

namespace Unpackers

def none : Unpackers := ⟨.none, .none⟩

def find? (u : Unpackers) : Packing → Option (Bytes → Unpacked)
  | .bzip2 => u.bzip2?
  | .lzma => u.lzma?

end Unpackers

inductive MemberFault where
  | headerTruncated
  | headerSignature
  | patched
  | strongEncryption
  | nameDiffers (name : String) (raw : Bytes)
  | overlapped (name : String)
  | encrypted (description : String)
  | unknownMethod
  /-- There is no library for the packing. -/
  | noLibrary (packing : Packing)
  | inflating (fault : Deflate.Fault)
  | checksum (path : String)
  /-- The archive ends before the member does. -/
  | endOfData
  deriving DecidableEq, Repr

def MemberFault.reason : MemberFault → String
  | headerTruncated => "Truncated file header"
  | headerSignature => "Bad magic number for file header"
  | patched => "compressed patched data (flag bit 5)"
  | strongEncryption => "strong encryption (flag bit 6)"
  | nameDiffers name raw =>
      "File name in directory " ++ Quoted.text name ++ " and header " ++ Quoted.bytes raw ++ " differ."
  | overlapped name => "Overlapped entries: " ++ Quoted.text name ++ " (possible zip bomb)"
  | encrypted description =>
      "File " ++ description ++ " is encrypted, password required for extraction"
  | unknownMethod => "That compression method is not supported"
  | noLibrary packing => "Compression requires the (missing) " ++ packing.library ++ " module"
  | inflating fault => "Error -3 while decompressing data: " ++ fault.message
  | checksum path => "Bad CRC-32 for file " ++ Quoted.text path
  | endOfData => ""

inductive Obstacle where
  /-- The member is said to begin in front of the archive. -/
  | negativeOffset (offset : Int)
  /-- The place of the member is no 64-bit number. -/
  | hugeOffset
  /-- The member's own header has a name that is not the UTF-8 it is said to be. -/
  | nameEncoding (flaw : Utf8.Flaw)
  /-- The library for the packing complains about the packed bytes. -/
  | damaged (packing : Packing) (message : String)
  | closed
  | unopened
  deriving DecidableEq, Repr

def Obstacle.message : Obstacle → String
  | negativeOffset offset => "negative seek value " ++ toString offset
  | hugeOffset => "Python int too large to convert to C ssize_t"
  | nameEncoding flaw => flaw.message
  | damaged _ message => message
  | closed => "Attempt to use ZIP archive that was already closed"
  | unopened => "JarArchive not entered as context manager"

inductive ReadFault where
  | member (fault : MemberFault)
  | obstacle (obstacle : Obstacle)
  deriving DecidableEq, Repr

namespace Member

/-- The first bytes of a member's own header. -/
def signature : Bytes := [0x50, 0x4B, 3, 4]

/-- The size of a member's own header without its name and fields. -/
def headerSize : Nat := 30

/-- Whether a flag of the directory is set. -/
def hasFlag (m : Member) (bit : Nat) : Bool := m.flags / bit % 2 == 1

/-- Offsets from here on, or as far below zero, have no place in 64 bits with a sign. -/
def offsetLimit : Int := 0x8000000000000000

/-- Where the member begins, if it can be sought. -/
def place (m : Member) : Except Obstacle Nat :=
  if m.offset < -offsetLimit ∨ offsetLimit ≤ m.offset then .error .hugeOffset
  else if m.offset < 0 then .error (.negativeOffset m.offset)
  else .ok m.offset.toNat

/-- How packed bytes become those of a member. -/
inductive Method where
  | stored
  | deflated
  | packed (packing : Packing) (unpack : Bytes → Unpacked)

/-- How the bytes of the member are unpacked, if that is known. -/
def unpacking (u : Unpackers) (m : Member) : Except MemberFault Method :=
  if m.method = 0 then .ok .stored
  else if m.method = 8 then .ok .deflated
  else
    match Packing.ofMethod? m.method with
    | none => .error .unknownMethod
    | some packing =>
        match u.find? packing with
        | some unpack => .ok (.packed packing unpack)
        | none => .error (.noLibrary packing)

/-- Where the packed bytes begin, if the headers agree and the member is not encrypted. -/
def payloadStart (data : ByteArray) (m : Member) : Except ReadFault Nat := do
  let start ← m.place.mapError .obstacle
  let header := window data start headerSize
  if header.length ≠ headerSize then .error (.member .headerTruncated)
  else if header.take 4 ≠ signature then .error (.member .headerSignature)
  else
    let nameLength := field header 26 2
    let raw := window data (start + headerSize) nameLength
    let payload := min data.size (start + headerSize + nameLength + field header 28 2)
    if m.hasFlag 0x20 then .error (.member .patched)
    else if m.hasFlag 0x40 then .error (.member .strongEncryption)
    else
      let name ← (Directory.decodeName (field header 6 2) raw).mapError fun flaw =>
        .obstacle (.nameEncoding flaw)
      if name ≠ m.name then .error (.member (.nameDiffers m.name raw))
      else if m.limit < payload + m.packedSize then .error (.member (.overlapped m.name))
      else if m.hasFlag 1 then .error (.member (.encrypted m.description))
      else .ok payload

/-- Whether the archive ends before all packed bytes of the member. -/
def isCut (m : Member) (packed : Bytes) : Bool := packed.length < m.packedSize

/-- The bytes of a stream, cut to size. If the archive ends inside the stream, that is a fault
where bytes are still missing. -/
def cutToSize (m : Member) (packed : Bytes) (out : ByteArray) (ended : Bool) :
    Except MemberFault ByteArray :=
  if !ended ∧ m.isCut packed ∧ out.size < m.size then .error .endOfData
  else .ok (out.extract 0 (min out.size m.size))

/-- The unpacked bytes, cut to size. -/
def unpack (m : Member) (method : Method) (packed : Bytes) : Except ReadFault ByteArray :=
  if m.isCut packed ∧ packed.isEmpty then .error (.member .endOfData)
  else
    match method with
    | .stored => (m.cutToSize packed packed.toByteArray false).mapError .member
    | .deflated =>
        let (out, ending) := Deflate.inflate packed
        match ending with
        | .broken fault => .error (.member (.inflating fault))
        | .starved => (m.cutToSize packed out false).mapError .member
        | .complete => (m.cutToSize packed out true).mapError .member
    | .packed packing unpack =>
        match unpack packed with
        | .damaged message => .error (.obstacle (.damaged packing message))
        | .content out ended => (m.cutToSize packed out ended).mapError .member

def read (u : Unpackers) (data : ByteArray) (m : Member) : Except ReadFault ByteArray := do
  let start ← m.payloadStart data
  let method ← (m.unpacking u).mapError .member
  let content ← m.unpack method (window data start m.packedSize)
  if (Checksum.crc32 content).toNat = m.checksum then return content
  else .error (.member (.checksum m.path))

end Member
end JarRank.Zip
