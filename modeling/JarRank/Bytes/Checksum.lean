/-!
# CRC-32

The checksum of ZIP members: the remainder of the data over GF(2) by the
polynomial `0xEDB88320` in reflected form, with all bits set before the first
byte and inverted after the last. A table holds the remainder of each byte.
-/
namespace JarRank.Checksum

/-- One bit of the division. -/
def step (c : UInt32) : UInt32 :=
  if c &&& 1 == 1 then (c >>> 1) ^^^ 0xEDB88320 else c >>> 1

def byteRemainder (b : UInt32) : UInt32 :=
  step (step (step (step (step (step (step (step b)))))))

def remainders : Array UInt32 :=
  (Array.range 256).map fun b => byteRemainder b.toUInt32

/-- Takes one more byte into a running remainder. -/
def update (c : UInt32) (b : UInt8) : UInt32 :=
  remainders.getD ((c ^^^ b.toUInt32) &&& 0xFF).toNat 0 ^^^ (c >>> 8)

/-- The CRC-32 of a byte string. -/
def crc32 (data : ByteArray) : UInt32 :=
  data.foldl update 0xFFFFFFFF ^^^ 0xFFFFFFFF

end JarRank.Checksum
