import DottedKeys.Text.Utf8

/-!
# Inflating

Deflated contents are a stream of bits in blocks. A block holds bytes as they are, or symbols in a
code whose words are given by their lengths alone: shorter words come first, and words of one length
follow each other in the order of their symbols. A symbol is a byte, the end of the block, or a
length, which a distance follows: so many bytes are repeated from so far back.
-/

namespace DottedKeys.Archive

/-- Bits in the order in which they are read. -/
abbrev Bits := List Bool

/-- The bits of bytes, of each byte the least significant one first. -/
def bitsOf (bytes : Bytes) : Bits :=
  bytes.flatMap fun b => (List.range 8).map b.toNat.testBit

/-- The number in the next `width` bits, the least significant one first. -/
def takeNumber? : (width : Nat) → Bits → Option (Nat × Bits)
  | 0, bits => some (0, bits)
  | _ + 1, [] => none
  | width + 1, b :: rest => do
    let (high, rest) ← takeNumber? width rest
    return (b.toNat + 2 * high, rest)

/-- The next `count` numbers of `width` bits. -/
def takeNumbers? (width : Nat) : (count : Nat) → Bits → Option (List Nat × Bits)
  | 0, bits => some ([], bits)
  | count + 1, bits => do
    let (n, bits) ← takeNumber? width bits
    let (more, bits) ← takeNumbers? width count bits
    return (n :: more, bits)

/-- A code word, read from its most significant bit on, and what it stands for. -/
structure Word where
  length : Nat
  value : Nat
  symbol : Nat

/-- The symbols whose words have a given length. -/
def symbolsOf (lengths : List Nat) (length : Nat) : List Nat :=
  (lengths.zipIdx.filter (·.1 = length)).map (·.2)

/-- The words of `count` lengths from `length` on, where the first word of that length is `value`. -/
def wordsFrom (lengths : List Nat) : (count length value : Nat) → List Word
  | 0, _, _ => []
  | count + 1, length, value =>
    let symbols := symbolsOf lengths length
    symbols.zipIdx.map (fun symbol => ⟨length, value + symbol.2, symbol.1⟩) ++
      wordsFrom lengths count (length + 1) (2 * (value + symbols.length))

/-- The code of word lengths, given for each symbol; a symbol of length zero has no word. -/
def code (lengths : List Nat) : List Word :=
  wordsFrom lengths 15 1 0

/-- The next symbol, where a word of `length` bits has been read so far. -/
def takeSymbolAfter? (words : List Word) : (length value : Nat) → Bits → Option (Nat × Bits)
  | _, _, [] => none
  | length, value, b :: rest =>
    let value := 2 * value + b.toNat
    match words.find? fun word => word.length = length + 1 && word.value = value with
    | some word => some (word.symbol, rest)
    | none => takeSymbolAfter? words (length + 1) value rest

/-- The next symbol. -/
def takeSymbol? (words : List Word) (bits : Bits) : Option (Nat × Bits) :=
  takeSymbolAfter? words 0 0 bits

/-- For each length symbol, how many further bits it has and the least length it stands for. -/
def lengthSteps : List (Nat × Nat) := [
  (0, 3), (0, 4), (0, 5), (0, 6), (0, 7), (0, 8), (0, 9), (0, 10), (1, 11), (1, 13), (1, 15),
  (1, 17), (2, 19), (2, 23), (2, 27), (2, 31), (3, 35), (3, 43), (3, 51), (3, 59), (4, 67), (4, 83),
  (4, 99), (4, 115), (5, 131), (5, 163), (5, 195), (5, 227), (0, 258)]

/-- For each distance symbol, how many further bits it has and the least distance it stands for. -/
def distanceSteps : List (Nat × Nat) := [
  (0, 1), (0, 2), (0, 3), (0, 4), (1, 5), (1, 7), (2, 9), (2, 13), (3, 17), (3, 25), (4, 33),
  (4, 49), (5, 65), (5, 97), (6, 129), (6, 193), (7, 257), (7, 385), (8, 513), (8, 769), (9, 1025),
  (9, 1537), (10, 2049), (10, 3073), (11, 4097), (11, 6145), (12, 8193), (12, 12289), (13, 16385),
  (13, 24577)]

/-- The number that a symbol and its further bits stand for. -/
def takeStep? (steps : List (Nat × Nat)) (symbol : Nat) (bits : Bits) : Option (Nat × Bits) := do
  let (width, least) ← steps[symbol]?
  let (more, bits) ← takeNumber? width bits
  return (least + more, bits)

/-- Repeat bytes from a distance. The bytes so far stand in reverse. -/
def repeatFrom? (distance : Nat) : (length : Nat) → Bytes → Option Bytes
  | 0, back => some back
  | length + 1, back => do
    let b ← back[distance - 1]?
    repeatFrom? distance length (b :: back)

/-- Read the symbols of a block; no more than `fuel` of them, where each takes a bit at least. -/
def takeSymbols? (letters distances : List Word) :
    (fuel : Nat) → Bits → Bytes → Option (Bytes × Bits)
  | 0, _, _ => none
  | fuel + 1, bits, back => do
    let (symbol, bits) ← takeSymbol? letters bits
    if symbol < 256 then takeSymbols? letters distances fuel bits (.ofNat symbol :: back)
    else if symbol = 256 then return (back, bits)
    else
      let (length, bits) ← takeStep? lengthSteps (symbol - 257) bits
      let (symbol, bits) ← takeSymbol? distances bits
      let (distance, bits) ← takeStep? distanceSteps symbol bits
      let back ← repeatFrom? distance length back
      takeSymbols? letters distances fuel bits back

/-- The lengths of the code that is always there. -/
def fixedLengths : List Nat :=
  .replicate 144 8 ++ .replicate 112 9 ++ .replicate 24 7 ++ .replicate 8 8

/-- The order in which the lengths of a code for lengths are given. -/
def lengthOrder : List Nat := [16, 17, 18, 0, 8, 7, 9, 6, 10, 5, 11, 4, 12, 3, 13, 2, 14, 1, 15]

/-- Read `count` lengths in a code for lengths. The lengths so far stand in reverse: a symbol may
repeat the last of them, or stand for a run of zeros. -/
def takeLengths? (words : List Word) (count : Nat) :
    (fuel : Nat) → Bits → (back : List Nat) → Option (List Nat × Bits)
  | 0, _, _ => none
  | fuel + 1, bits, back =>
    if count ≤ back.length then
      if back.length = count then some (back.reverse, bits) else none
    else do
      let (symbol, bits) ← takeSymbol? words bits
      if symbol < 16 then takeLengths? words count fuel bits (symbol :: back)
      else if symbol = 16 then
        let (more, bits) ← takeNumber? 2 bits
        takeLengths? words count fuel bits (.replicate (3 + more) (← back.head?) ++ back)
      else
        let (more, bits) ← takeNumber? (if symbol = 17 then 3 else 7) bits
        let run := (if symbol = 17 then 3 else 11) + more
        takeLengths? words count fuel bits (.replicate run 0 ++ back)

/-- Read the two codes of a block that brings its own. -/
def takeCodes? (bits : Bits) : Option (List Word × List Word × Bits) := do
  let (letters, bits) ← takeNumber? 5 bits
  let (distances, bits) ← takeNumber? 5 bits
  let (count, bits) ← takeNumber? 4 bits
  let (given, bits) ← takeNumbers? 3 (count + 4) bits
  let lengths := (List.range 19).map fun symbol =>
    ((lengthOrder.zip given).lookup symbol).getD 0
  let (all, bits) ←
    takeLengths? (code lengths) (letters + 257 + distances + 1) (bits.length + 1) bits []
  return (code (all.take (letters + 257)), code (all.drop (letters + 257)), bits)

/-- Read a block that holds bytes as they are, from the next full byte on. -/
def takeStored? (bits : Bits) (back : Bytes) : Option (Bytes × Bits) := do
  let (length, bits) ← takeNumber? 16 (bits.drop (bits.length % 8))
  let (turned, bits) ← takeNumber? 16 bits
  if length + turned ≠ 0xFFFF then none
  let (bytes, bits) ← takeNumbers? 8 length bits
  return (bytes.reverse.map .ofNat ++ back, bits)

/-- Read blocks up to the one that says it is the last. -/
def takeBlocks? : (fuel : Nat) → Bits → Bytes → Option Bytes
  | 0, _, _ => none
  | fuel + 1, bits, back => do
    let (last, bits) ← takeNumber? 1 bits
    let (form, bits) ← takeNumber? 2 bits
    let (back, bits) ←
      match form with
      | 0 => takeStored? bits back
      | 1 => takeSymbols? (code fixedLengths) (code (.replicate 30 5)) (bits.length + 1) bits back
      | 2 => do
        let (letters, distances, bits) ← takeCodes? bits
        takeSymbols? letters distances (bits.length + 1) bits back
      | _ => none
    if last = 1 then return back.reverse
    takeBlocks? fuel bits back

/-- The contents that were deflated to some bytes. -/
def inflate? (bytes : Bytes) : Option Bytes :=
  let bits := bitsOf bytes
  takeBlocks? (bits.length + 1) bits []

end DottedKeys.Archive
