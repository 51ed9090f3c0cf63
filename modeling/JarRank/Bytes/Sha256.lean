import JarRank.Bytes.Hex

/-!
# SHA-256

The digest that identifies an archive. The message is padded to whole blocks of
64 bytes with a set bit, zeros and its own length in bits; every block is
expanded to 64 words and mixed into a state of eight words.
-/
namespace JarRank.Sha256

structure State where
  a : UInt32
  b : UInt32
  c : UInt32
  d : UInt32
  e : UInt32
  f : UInt32
  g : UInt32
  h : UInt32

/-- The fractional parts of the square roots of the first eight primes. -/
def State.initial : State :=
  ⟨0x6a09e667, 0xbb67ae85, 0x3c6ef372, 0xa54ff53a, 0x510e527f, 0x9b05688c, 0x1f83d9ab, 0x5be0cd19⟩

/-- The fractional parts of the cube roots of the first 64 primes. -/
def roundConstants : Array UInt32 := #[
  0x428a2f98, 0x71374491, 0xb5c0fbcf, 0xe9b5dba5, 0x3956c25b, 0x59f111f1, 0x923f82a4, 0xab1c5ed5,
  0xd807aa98, 0x12835b01, 0x243185be, 0x550c7dc3, 0x72be5d74, 0x80deb1fe, 0x9bdc06a7, 0xc19bf174,
  0xe49b69c1, 0xefbe4786, 0x0fc19dc6, 0x240ca1cc, 0x2de92c6f, 0x4a7484aa, 0x5cb0a9dc, 0x76f988da,
  0x983e5152, 0xa831c66d, 0xb00327c8, 0xbf597fc7, 0xc6e00bf3, 0xd5a79147, 0x06ca6351, 0x14292967,
  0x27b70a85, 0x2e1b2138, 0x4d2c6dfc, 0x53380d13, 0x650a7354, 0x766a0abb, 0x81c2c92e, 0x92722c85,
  0xa2bfe8a1, 0xa81a664b, 0xc24b8b70, 0xc76c51a3, 0xd192e819, 0xd6990624, 0xf40e3585, 0x106aa070,
  0x19a4c116, 0x1e376c08, 0x2748774c, 0x34b0bcb5, 0x391c0cb3, 0x4ed8aa4a, 0x5b9cca4f, 0x682e6ff3,
  0x748f82ee, 0x78a5636f, 0x84c87814, 0x8cc70208, 0x90befffa, 0xa4506ceb, 0xbef9a3f7, 0xc67178f2]

/-- Rotation to the right by `n` bits, `0 < n < 32`. -/
def rotate (x : UInt32) (n : UInt32) : UInt32 := (x >>> n) ||| (x <<< (32 - n))

/-- The message with its padding: a set bit, zeros up to eight bytes short of a block, its length. -/
def padded (data : ByteArray) : ByteArray :=
  let zeros := (119 - data.size % 64) % 64
  let bits := data.size * 8
  let marked := (List.replicate zeros (0 : UInt8)).foldl ByteArray.push (data.push 0x80)
  [7, 6, 5, 4, 3, 2, 1, 0].foldl (fun out i => out.push (UInt8.ofNat (bits >>> (8 * i)))) marked

def word (data : ByteArray) (i : Nat) : UInt32 :=
  let byte (j : Nat) : UInt32 := (data.get! (i + j)).toUInt32
  (byte 0 <<< 24) ||| (byte 1 <<< 16) ||| (byte 2 <<< 8) ||| byte 3

/-- Adds one word to a schedule of at least sixteen. -/
def extend (w : Array UInt32) : Array UInt32 :=
  let t := w.size
  let x := w.getD (t - 15) 0
  let y := w.getD (t - 2) 0
  let s0 := rotate x 7 ^^^ rotate x 18 ^^^ (x >>> 3)
  let s1 := rotate y 17 ^^^ rotate y 19 ^^^ (y >>> 10)
  w.push (w.getD (t - 16) 0 + s0 + w.getD (t - 7) 0 + s1)

/-- The 64 words that a block at byte `i` expands to. -/
def schedule (data : ByteArray) (i : Nat) : Array UInt32 :=
  let first := (List.range 16).foldl (fun w j => w.push (word data (i + 4 * j))) #[]
  (List.range 48).foldl (fun w _ => extend w) first

def State.round (s : State) (k w : UInt32) : State :=
  let s1 := rotate s.e 6 ^^^ rotate s.e 11 ^^^ rotate s.e 25
  let choice := (s.e &&& s.f) ^^^ ((~~~ s.e) &&& s.g)
  let t1 := s.h + s1 + choice + k + w
  let s0 := rotate s.a 2 ^^^ rotate s.a 13 ^^^ rotate s.a 22
  let majority := (s.a &&& s.b) ^^^ (s.a &&& s.c) ^^^ (s.b &&& s.c)
  ⟨t1 + (s0 + majority), s.a, s.b, s.c, s.d + t1, s.e, s.f, s.g⟩

def State.block (data : ByteArray) (s : State) (i : Nat) : State :=
  let w := schedule data i
  let m := (List.range 64).foldl (fun r t => r.round (roundConstants.getD t 0) (w.getD t 0)) s
  ⟨s.a + m.a, s.b + m.b, s.c + m.c, s.d + m.d, s.e + m.e, s.f + m.f, s.g + m.g, s.h + m.h⟩

/-- The digest as 64 lower-case hexadecimal digits. -/
def hexDigest (data : ByteArray) : String :=
  let message := padded data
  let s := (List.range (message.size / 64)).foldl (fun s i => s.block message (64 * i)) State.initial
  String.join ([s.a, s.b, s.c, s.d, s.e, s.f, s.g, s.h].map fun w => Hex.lower 8 w.toNat)

end JarRank.Sha256
