import JarRank.Bytes.Number

/-!
# Bits

A compressed stream is read bit by bit, the least significant bit of a byte
first. The reader holds the rest of a byte that has been begun and the bytes
after it. There is no fault here: where a stream ends, the answer is `none`.
-/
namespace JarRank.Deflate

structure Bits where
  /-- The unread bits of the byte that has been begun. -/
  begun : List Bool
  rest : Bytes

namespace Bits

/-- The eight bits of a byte, least significant first. -/
def ofByte (b : UInt8) : List Bool :=
  [1, 2, 4, 8, 16, 32, 64, 128].map fun m => b &&& m != 0

def ofBytes (bs : Bytes) : Bits := ⟨[], bs⟩

def count (b : Bits) : Nat := b.begun.length + 8 * b.rest.length

def next? : Bits → Option (Bool × Bits)
  | ⟨b :: begun, rest⟩ => some (b, ⟨begun, rest⟩)
  | ⟨[], byte :: rest⟩ =>
      match ofByte byte with
      | b :: begun => some (b, ⟨begun, rest⟩)
      | [] => none
  | ⟨[], []⟩ => none

/-- The next `n` bits as a number, the first bit least significant. -/
def number? (n : Nat) (b : Bits) : Option (Nat × Bits) := go n b 1 0
where
  go : Nat → Bits → Nat → Nat → Option (Nat × Bits)
    | 0, b, _, value => some (value, b)
    | n + 1, b, weight, value =>
        match b.next? with
        | none => none
        | some (bit, b) => go n b (2 * weight) (if bit then value + weight else value)

end Bits
end JarRank.Deflate
