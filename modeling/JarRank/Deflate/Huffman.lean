import JarRank.Deflate.Bits

/-!
# Huffman codes

A code is given by the length of the codeword of every symbol, zero for none.
Codewords of one length are consecutive numbers in symbol order, and those of a
greater length go on behind them. A code is usable if the codewords do not
overlap and leave no gap; one symbol with a codeword of length one is allowed
beside, and so is a code of no symbols, unless it is to be gapless.

Codewords are read one bit at a time. In a usable code with a gap every codeword
has at most one bit, so a bit that is no codeword is refused at once.
-/
namespace JarRank.Deflate

structure Huffman where
  /-- How many codewords there are of each length from one on. -/
  counts : List Nat
  /-- The symbols in the order of their codewords. -/
  symbols : Array Nat

namespace Huffman

/-- The greatest length of a codeword. -/
def maxLength : Nat := 15

/-- How many symbols have codewords of a length. -/
def countOf (lengths : Array Nat) (n : Nat) : Nat := lengths.count n

/-- The code that some lengths give, whether usable or not. -/
def ofLengths (lengths : Array Nat) : Huffman :=
  let sizes := (List.range maxLength).map (· + 1)
  ⟨sizes.map (countOf lengths),
   sizes.foldl (fun symbols n =>
      (List.range lengths.size).foldl (fun symbols i =>
        if lengths.getD i 0 = n then symbols.push i else symbols) symbols) #[]⟩

/-- What is left of the codewords of the greatest length: zero if none is, and
negative if there are too many. -/
def slack (h : Huffman) : Int :=
  h.counts.foldl (fun (left : Int) (n : Nat) => 2 * left - n) 1

/-- Whether no codeword is longer than one bit. -/
def isShort (h : Huffman) : Bool := (h.counts.drop 1).all (· == 0)

def isEmpty (h : Huffman) : Bool := h.counts.all (· == 0)

/-- Whether the code can be read without doubt, with a gap only if it is short. -/
def isUsable (h : Huffman) : Bool :=
  h.slack == 0 || (0 < h.slack && h.isShort)

/-- Whether the code has neither overlap nor gap, or no codeword at all. -/
def isGapless (h : Huffman) : Bool := h.slack == 0 || h.isEmpty

inductive Decoded where
  | symbol (s : Nat) (rest : Bits)
  /-- They begin no codeword. -/
  | refused
  /-- The stream ends inside a codeword. -/
  | ended

/-- Reads a codeword of the remaining lengths. `code` are the bits so far, `first`
the first codeword of this length, `index` how many shorter ones there are. -/
def decodeFrom (h : Huffman) : List Nat → (code first index : Nat) → Bits → Decoded
  | [], _, _, _, _ => .refused
  | n :: counts, code, first, index, b =>
      match b.next? with
      | none => .ended
      | some (bit, b) =>
          let code := 2 * code + bit.toNat
          if code < first + n then .symbol (h.symbols.getD (index + (code - first)) 0) b
          else if counts.all (· == 0) then .refused
          else decodeFrom h counts code (2 * (first + n)) (index + n) b

/-- Reads one symbol. -/
def decode (h : Huffman) (b : Bits) : Decoded := h.decodeFrom h.counts 0 0 0 b

end Huffman
end JarRank.Deflate
