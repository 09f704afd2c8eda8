import ClassTemplates.Bytes

/-!
# Deflated data

Deflated data is a sequence of bits that falls into blocks. A block holds bytes as they are, or
symbols of a prefix-free code: bytes, and repetitions of bytes already written. Data is written in
blocks of the first kind and read in all of them.

## Main definitions

- `Deflate.deflate` — bytes as blocks of bytes
- `Deflate.Code` — a prefix-free code given by the lengths of its words
- `Deflate.inflate?` — the bytes that deflated data stands for
-/

namespace ClassTemplates.Deflate

/-! ### Writing -/

/-- The most bytes a block of bytes can hold. -/
def maxBlock : Nat := 65535

/-- A block of bytes: whether it is the last one, its length, the complement of it, and the bytes.
-/
def block (last : Bool) (bytes : Bytes) : Bytes :=
  let n := UInt16.ofNat bytes.length
  let m := ~~~n
  [if last then 1 else 0, n.toUInt8, (n >>> 8).toUInt8, m.toUInt8, (m >>> 8).toUInt8] ++ bytes

/-- Blocks of the given number of bytes, behind those that are done, and a last one of the rest. -/
def blocksOnto (done : Array UInt8) (count : Nat) (bytes : Bytes) : Array UInt8 :=
  match count with
  | 0 => done ++ block true bytes
  | count + 1 =>
    blocksOnto (done ++ block false (bytes.take maxBlock)) count (bytes.drop maxBlock)

/-- Bytes as blocks of bytes. -/
def deflate (bytes : Bytes) : Bytes :=
  (blocksOnto #[] (bytes.length / maxBlock) bytes).toList

/-! ### Reading -/

/-- The bit at a position, the lowest of each byte first. -/
def bit? (data : Array UInt8) (position : Nat) : Option Nat :=
  data[position / 8]?.map fun b => (b.toNat >>> (position % 8)) % 2

/-- The number that `n` bits spell, the lowest first, and the position behind them. -/
def bits? (data : Array UInt8) (position : Nat) : Nat → Option (Nat × Nat)
  | 0 => some (0, position)
  | n + 1 => do
    let low ← bit? data position
    let (high, stop) ← bits? data (position + 1) n
    pure (low + 2 * high, stop)

/-- A prefix-free code: the number of words of each length from one bit on, and the symbols in the
order of their words. -/
structure Code where
  counts : List Nat
  symbols : Array Nat
  deriving Repr

namespace Code

/-- The longest word, in bits. -/
def maxLength : Nat := 15

/-- The code in which symbol `i` has a word of `lengths[i]` bits, or none for zero. -/
def ofLengths (lengths : List Nat) : Code :=
  let used := (lengths.zipIdx).filter fun (n, _) => n != 0
  ⟨(List.range maxLength).map fun i => lengths.count (i + 1),
    ((used.mergeSort fun a b => a.1 ≤ b.1).map (·.2)).toArray⟩

/-- The words fill the code: none can be added, and none is the start of another. In units of the
space of a word of 16 bits, a word of `n` bits takes two to the power of `16 - n`. -/
def isFull (c : Code) : Bool :=
  c.counts.foldl (fun total n => 2 * (total + n)) 0 == 65536

/-- A described code can be used if it is full, or if it has at most one word. -/
def isUsable (c : Code) : Bool :=
  c.isFull || c.symbols.size ≤ 1

/-- The symbol whose word starts with the bits of `word`, and the position behind it. Of the words
of each length the first is `first`, and its symbol stands at `index`. -/
def symbolFrom? (symbols : Array Nat) (data : Array UInt8) (position word first index : Nat) :
    List Nat → Option (Nat × Nat)
  | [] => none
  | count :: counts => do
    let b ← bit? data position
    let word := 2 * word + b
    if word < first + count then
      let symbol ← symbols[index + (word - first)]?
      pure (symbol, position + 1)
    else symbolFrom? symbols data (position + 1) word (2 * (first + count)) (index + count) counts

/-- The symbol at a position, and the position behind it. -/
def symbol? (c : Code) (data : Array UInt8) (position : Nat) : Option (Nat × Nat) :=
  symbolFrom? c.symbols data position 0 0 0 c.counts

end Code

/-- The extra bits of lengths and their least values, by symbol from 257 on. -/
def lengthTable : Array (Nat × Nat) :=
  #[(0, 3), (0, 4), (0, 5), (0, 6), (0, 7), (0, 8), (0, 9), (0, 10), (1, 11), (1, 13), (1, 15),
    (1, 17), (2, 19), (2, 23), (2, 27), (2, 31), (3, 35), (3, 43), (3, 51), (3, 59), (4, 67),
    (4, 83), (4, 99), (4, 115), (5, 131), (5, 163), (5, 195), (5, 227), (0, 258)]

/-- The extra bits of distances and their least values. -/
def distanceTable : Array (Nat × Nat) :=
  #[(0, 1), (0, 2), (0, 3), (0, 4), (1, 5), (1, 7), (2, 9), (2, 13), (3, 17), (3, 25), (4, 33),
    (4, 49), (5, 65), (5, 97), (6, 129), (6, 193), (7, 257), (7, 385), (8, 513), (8, 769),
    (9, 1025), (9, 1537), (10, 2049), (10, 3073), (11, 4097), (11, 6145), (12, 8193),
    (12, 12289), (13, 16385), (13, 24577)]

/-- The value that a symbol of a table stands for with the extra bits at a position. -/
def extended? (table : Array (Nat × Nat)) (symbol : Nat) (data : Array UInt8) (position : Nat) :
    Option (Nat × Nat) := do
  let (width, least) ← table[symbol]?
  let (extra, stop) ← bits? data position width
  pure (least + extra, stop)

/-- The byte some way back from the end. In front of the first byte there are zeros. -/
def byteBack (out : Array UInt8) (distance : Nat) : UInt8 :=
  if distance ≤ out.size then (out[out.size - distance]?).getD 0 else 0

/-- The bytes written so far, followed by `n` that repeat those `distance` back. -/
def repeatOnto (out : Array UInt8) (distance : Nat) : Nat → Array UInt8
  | 0 => out
  | n + 1 => repeatOnto (out.push (byteBack out distance)) distance n

/-- The symbols of a block up to its end, written behind `out`. Each takes at least one bit, so
`fuel` is the number of bits. -/
def symbolsOnto (fuel : Nat) (literals distances : Code) (data : Array UInt8) (position : Nat)
    (out : Array UInt8) : Option (Nat × Array UInt8) :=
  match fuel with
  | 0 => none
  | fuel + 1 =>
    match literals.symbol? data position with
    | none => none
    | some (symbol, position) =>
      if symbol < 256 then
        symbolsOnto fuel literals distances data position (out.push (UInt8.ofNat symbol))
      else if symbol = 256 then some (position, out)
      else
        match repetition? symbol position with
        | none => none
        | some (length, distance, position) =>
          symbolsOnto fuel literals distances data position (repeatOnto out distance length)
where
  /-- The length and the distance of a repetition. -/
  repetition? (symbol position : Nat) : Option (Nat × Nat × Nat) := do
    let (length, position) ← extended? lengthTable (symbol - 257) data position
    let (symbol, position) ← distances.symbol? data position
    let (distance, position) ← extended? distanceTable symbol data position
    pure (length, distance, position)

/-- The codes that a block may use without describing them. -/
def fixedCodes : Code × Code :=
  (.ofLengths (List.replicate 144 8 ++ List.replicate 112 9 ++ List.replicate 24 7
    ++ List.replicate 8 8), .ofLengths (List.replicate 30 5))

/-- The order in which the lengths of the code for lengths are given. -/
def lengthOrder : List Nat :=
  [16, 17, 18, 0, 8, 7, 9, 6, 10, 5, 11, 4, 12, 3, 13, 2, 14, 1, 15]

/-- `n` numbers of three bits. -/
def triplesOnto (done : Array Nat) (data : Array UInt8) (position : Nat) : Nat →
    Option (Array Nat × Nat)
  | 0 => some (done, position)
  | n + 1 => do
    let (v, position) ← bits? data position 3
    triplesOnto (done.push v) data position n

/-- Lengths in the code for lengths, behind those that are done, until there are `total`. -/
def lengthsOnto (fuel : Nat) (c : Code) (data : Array UInt8) (position total : Nat)
    (done : Array Nat) : Option (Array Nat × Nat) :=
  match fuel with
  | 0 => none
  | fuel + 1 =>
    if done.size ≥ total then (if done.size = total then some (done, position) else none)
    else
      match run? position with
      | none => none
      | some (value, count, position) =>
        lengthsOnto fuel c data position total (done ++ Array.replicate count value)
where
  /-- A length and how often it comes. -/
  run? (position : Nat) : Option (Nat × Nat × Nat) := do
    let (symbol, position) ← c.symbol? data position
    if symbol < 16 then pure (symbol, 1, position)
    else if symbol = 16 then
      let last ← done.back?
      let (n, position) ← bits? data position 2
      pure (last, n + 3, position)
    else if symbol = 17 then
      let (n, position) ← bits? data position 3
      pure (0, n + 3, position)
    else
      let (n, position) ← bits? data position 7
      pure (0, n + 11, position)

/-- The codes that a block describes, and the position behind the description. -/
def describedCodes? (data : Array UInt8) (position : Nat) : Option ((Code × Code) × Nat) := do
  let (literals, position) ← bits? data position 5
  let (distances, position) ← bits? data position 5
  let (count, position) ← bits? data position 4
  let literals := literals + 257
  let distances := distances + 1
  guard (literals ≤ 286 ∧ distances ≤ 30)
  let (given, position) ← triplesOnto #[] data position (count + 4)
  let placed := lengthOrder.zip given.toList
  let lengths := (List.range 19).map fun symbol =>
    ((placed.find? fun p => p.1 == symbol).map (·.2)).getD 0
  let lengthCode := Code.ofLengths lengths
  guard lengthCode.isFull
  let total := literals + distances
  let (all, position) ← lengthsOnto (total + 1) lengthCode data position total #[]
  let literalCode := Code.ofLengths (all.toList.take literals)
  let distanceCode := Code.ofLengths (all.toList.drop literals)
  guard (literalCode.isUsable && distanceCode.isUsable)
  pure ((literalCode, distanceCode), position)

/-- A block of bytes at a position, written behind `out`. -/
def plainOnto (data : Array UInt8) (position : Nat) (out : Array UInt8) :
    Option (Nat × Array UInt8) := do
  let start := (position + 7) / 8
  let (n, _) ← bits? data (8 * start) 16
  let (m, _) ← bits? data (8 * start + 16) 16
  if n + m = 65535 ∧ start + 4 + n ≤ data.size then
    pure (8 * (start + 4 + n), out ++ data.extract (start + 4) (start + 4 + n))
  else none

/-- One block at a position, written behind `out`: whether it is the last, and the position behind
it. -/
def blockOnto (data : Array UInt8) (position : Nat) (out : Array UInt8) :
    Option (Bool × Nat × Array UInt8) := do
  let (last, position) ← bits? data position 1
  let (kind, position) ← bits? data position 2
  let fuel := 8 * data.size + 1
  let (position, out) ← match kind with
    | 0 => plainOnto data position out
    | 1 => symbolsOnto fuel fixedCodes.1 fixedCodes.2 data position out
    | 2 => do
      let (codes, position) ← describedCodes? data position
      symbolsOnto fuel codes.1 codes.2 data position out
    | _ => none
  pure (last == 1, position, out)

/-- Blocks up to the last one, written behind `out`. Each takes at least three bits, so `fuel` is
the number of bits. -/
def blocksFrom? (fuel : Nat) (data : Array UInt8) (position : Nat) (out : Array UInt8) :
    Option (Array UInt8) :=
  match fuel with
  | 0 => none
  | fuel + 1 =>
    match blockOnto data position out with
    | none => none
    | some (true, _, out) => some out
    | some (false, position, out) => blocksFrom? fuel data position out

/-- The bytes that deflated data stands for. -/
def inflate? (data : Bytes) : Option Bytes :=
  let data := data.toArray
  (blocksFrom? (8 * data.size + 1) data 0 #[]).map Array.toList

end ClassTemplates.Deflate
