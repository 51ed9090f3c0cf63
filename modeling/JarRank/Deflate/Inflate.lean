import JarRank.Deflate.Huffman

/-!
# Inflating

A deflated stream is a sequence of blocks, of which the first to say so is the
last. A block holds its bytes as they are, or as symbols in a fixed code, or in
a code that the block itself describes. A symbol is a byte, the end of the
block, or a length, which a distance follows: that many bytes are repeated from
that far back.

The input may end anywhere. What was inflated up to there counts, and a fault is
met only if the bits that show it are there. Bytes behind the last block are not
looked at.
-/
namespace JarRank.Deflate

inductive Fault where
  | blockType
  | storedLengths
  | tooManySymbols
  | codeLengthsSet
  | bitLengthRepeat
  | missingEndOfBlock
  | literalLengthsSet
  | distancesSet
  | literalLengthCode
  | distanceCode
  | distanceTooFar
  deriving DecidableEq, Repr

def Fault.message : Fault → String
  | blockType => "invalid block type"
  | storedLengths => "invalid stored block lengths"
  | tooManySymbols => "too many length or distance symbols"
  | codeLengthsSet => "invalid code lengths set"
  | bitLengthRepeat => "invalid bit length repeat"
  | missingEndOfBlock => "invalid code -- missing end-of-block"
  | literalLengthsSet => "invalid literal/lengths set"
  | distancesSet => "invalid distances set"
  | literalLengthCode => "invalid literal/length code"
  | distanceCode => "invalid distance code"
  | distanceTooFar => "invalid distance too far back"

/-- How inflating came to its end. -/
inductive Ending where
  | complete
  /-- The input ended before the last block did. -/
  | starved
  | broken (fault : Fault)
  deriving DecidableEq, Repr

/-- What a part of the stream leads to, with the bytes inflated so far. -/
inductive Outcome where
  | more (out : ByteArray) (rest : Bits)
  | stop (out : ByteArray) (ending : Ending)

/-- The least length and the number of further bits of each length symbol, from 257 on. -/
def lengthCodes : Array (Nat × Nat) := #[
  (3, 0), (4, 0), (5, 0), (6, 0), (7, 0), (8, 0), (9, 0), (10, 0), (11, 1), (13, 1), (15, 1),
  (17, 1), (19, 2), (23, 2), (27, 2), (31, 2), (35, 3), (43, 3), (51, 3), (59, 3), (67, 4),
  (83, 4), (99, 4), (115, 4), (131, 5), (163, 5), (195, 5), (227, 5), (258, 0)]

/-- The least distance and the number of further bits of each distance symbol. -/
def distanceCodes : Array (Nat × Nat) := #[
  (1, 0), (2, 0), (3, 0), (4, 0), (5, 1), (7, 1), (9, 2), (13, 2), (17, 3), (25, 3), (33, 4),
  (49, 4), (65, 5), (97, 5), (129, 6), (193, 6), (257, 7), (385, 7), (513, 8), (769, 8),
  (1025, 9), (1537, 9), (2049, 10), (3073, 10), (4097, 11), (6145, 11), (8193, 12), (12289, 12),
  (16385, 13), (24577, 13)]

/-- Repeats bytes from `distance` back, one by one, so that they may overlap. -/
def repeatBack (distance : Nat) : (length : Nat) → ByteArray → ByteArray
  | 0, out => out
  | n + 1, out => repeatBack distance n (out.push (out.get! (out.size - distance)))

/-- Reads symbols to the end of a block. -/
def symbols (literals distances : Huffman) : (fuel : Nat) → ByteArray → Bits → Outcome
  | 0, out, _ => .stop out .starved
  | fuel + 1, out, b =>
      match literals.decode b with
      | .ended => .stop out .starved
      | .refused => .stop out (.broken .literalLengthCode)
      | .symbol s b =>
          if s < 256 then symbols literals distances fuel (out.push (UInt8.ofNat s)) b
          else if s = 256 then .more out b
          else
            match lengthCodes[s - 257]? with
            | none => .stop out (.broken .literalLengthCode)
            | some (least, bits) =>
                match b.number? bits with
                | none => .stop out .starved
                | some (further, b) =>
                    let length := least + further
                    match distances.decode b with
                    | .ended => .stop out .starved
                    | .refused => .stop out (.broken .distanceCode)
                    | .symbol d b =>
                        match distanceCodes[d]? with
                        | none => .stop out (.broken .distanceCode)
                        | some (least, bits) =>
                            match b.number? bits with
                            | none => .stop out .starved
                            | some (further, b) =>
                                let distance := least + further
                                if out.size < distance then .stop out (.broken .distanceTooFar)
                                else
                                  symbols literals distances fuel (repeatBack distance length out) b

/-- A block whose bytes are as they are, behind their number and its complement. -/
def storedBlock (out : ByteArray) (b : Bits) : Outcome :=
  match b.rest with
  | l0 :: l1 :: c0 :: c1 :: rest =>
      let length := Bytes.littleEndian [l0, l1]
      if length + Bytes.littleEndian [c0, c1] ≠ 0xFFFF then .stop out (.broken .storedLengths)
      else
        let out := (rest.take length).foldl ByteArray.push out
        match Bytes.drop? length rest with
        | some rest => .more out (Bits.ofBytes rest)
        | none => .stop out .starved
  | _ => .stop out .starved

def fixedLiterals : Huffman :=
  Huffman.ofLengths ((List.replicate 144 8 ++ List.replicate 112 9 ++ List.replicate 24 7 ++
    List.replicate 8 8).toArray)

def fixedDistances : Huffman := Huffman.ofLengths (List.replicate 32 5).toArray

/-- The order in which a block gives the lengths of the code of its code lengths. -/
def lengthOrder : List Nat := [16, 17, 18, 0, 8, 7, 9, 6, 10, 5, 11, 4, 12, 3, 13, 2, 14, 1, 15]

/-- The lengths of the code of the code lengths, three bits each. -/
def metaLengths : List Nat → Array Nat → Bits → Option (Array Nat × Bits)
  | [], lengths, b => some (lengths, b)
  | symbol :: order, lengths, b =>
      match b.number? 3 with
      | none => none
      | some (n, b) => metaLengths order (lengths.setIfInBounds symbol n) b

/-- One entry of the code lengths; in a code of no codewords every bit is the entry zero. -/
def metaSymbol (h : Huffman) (b : Bits) : Huffman.Decoded :=
  if h.isEmpty then
    match b.next? with
    | none => .ended
    | some (_, b) => .symbol 0 b
  else h.decode b

/-- Which length is repeated and how often, for the entries from 16 on. -/
def repetition (symbol : Nat) (lengths : Array Nat) (b : Bits) :
    Except Ending (Nat × Nat × Bits) :=
  let (base, bits) := if symbol = 16 then (3, 2) else if symbol = 17 then (3, 3) else (11, 7)
  match b.number? bits with
  | none => .error .starved
  | some (further, b) =>
      if symbol = 16 then
        match lengths.back? with
        | none => .error (.broken .bitLengthRepeat)
        | some last => .ok (last, base + further, b)
      else .ok (0, base + further, b)

/-- Reads code lengths until there are `total`. -/
def codeLengths (h : Huffman) (total : Nat) : (fuel : Nat) → Array Nat → Bits →
    Except Ending (Array Nat × Bits)
  | 0, lengths, b => .ok (lengths, b)
  | fuel + 1, lengths, b =>
      if total ≤ lengths.size then .ok (lengths, b)
      else
        match metaSymbol h b with
        | .ended => .error .starved
        | .refused => .error (.broken .codeLengthsSet)
        | .symbol s b =>
            if s < 16 then codeLengths h total fuel (lengths.push s) b
            else
              match repetition s lengths b with
              | .error e => .error e
              | .ok (n, times, b) =>
                  if total < lengths.size + times then .error (.broken .bitLengthRepeat)
                  else codeLengths h total fuel (lengths ++ (List.replicate times n).toArray) b

/-- The two codes that a block describes. -/
def describedCodes (b : Bits) : Except Ending (Huffman × Huffman × Bits) :=
  match b.number? 14 with
  | none => .error .starved
  | some (sizes, b) =>
      let literalCount := 257 + sizes % 32
      let distanceCount := 1 + sizes / 32 % 32
      if 286 < literalCount ∨ 30 < distanceCount then .error (.broken .tooManySymbols)
      else
        match metaLengths (lengthOrder.take (4 + sizes / 1024)) (Array.replicate 19 0) b with
        | none => .error .starved
        | some (lengths, b) =>
            let h := Huffman.ofLengths lengths
            if h.isGapless = false then .error (.broken .codeLengthsSet)
            else
              let total := literalCount + distanceCount
              match codeLengths h total total #[] b with
              | .error e => .error e
              | .ok (lengths, b) =>
                  let literals := Huffman.ofLengths (lengths.take literalCount)
                  let distances := Huffman.ofLengths (lengths.drop literalCount)
                  if lengths.getD 256 0 = 0 then .error (.broken .missingEndOfBlock)
                  else if literals.isUsable = false then .error (.broken .literalLengthsSet)
                  else if distances.isUsable = false then .error (.broken .distancesSet)
                  else .ok (literals, distances, b)

def block (type : Nat) (out : ByteArray) (b : Bits) : Outcome :=
  if type = 0 then storedBlock out b
  else if type = 1 then symbols fixedLiterals fixedDistances (b.count + 1) out b
  else if type = 2 then
    match describedCodes b with
    | .error e => .stop out e
    | .ok (literals, distances, b) => symbols literals distances (b.count + 1) out b
  else .stop out (.broken .blockType)

def blocks : (fuel : Nat) → ByteArray → Bits → ByteArray × Ending
  | 0, out, _ => (out, .starved)
  | fuel + 1, out, b =>
      match b.number? 3 with
      | none => (out, .starved)
      | some (header, b) =>
          match block (header / 2) out b with
          | .stop out e => (out, e)
          | .more out b => if header % 2 = 1 then (out, .complete) else blocks fuel out b

/-- What a stream inflates to, and how it ended. -/
def inflate (data : Bytes) : ByteArray × Ending :=
  let b := Bits.ofBytes data
  blocks (b.count + 1) ByteArray.empty b

end JarRank.Deflate
