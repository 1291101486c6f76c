import ApuScore.Bytes
/-
  Deflate streams — the blocks of a gzip member.

  A stream is read bit by bit, the low bits of a byte first, and is a row of blocks.
  A block holds plain bytes, or symbols in two prefix codes, which are fixed or
  described in front of them. A symbol is a byte, the end of the block, or a length;
  a length comes with a distance, and so many bytes are repeated from so far back.

  A prefix code is given by the lengths of its codes alone: shorter codes come first,
  and codes of one length are in the order of their symbols.
-/

namespace ApuScore

/-- Why a stream is refused. -/
inductive DeflateError where
  /-- It ends before its last block does. -/
  | incomplete
  | corrupt
  deriving DecidableEq, Repr

def DeflateError.message : DeflateError → String
  | .incomplete => "incomplete deflate stream"
  | .corrupt => "corrupt deflate stream"

namespace Deflate

/-- What is left of a stream. -/
structure Source where
  /-- The bits left of a byte that is read in part, as a number. -/
  held : Nat := 0
  count : Nat := 0
  bytes : Bytes

abbrev Reader := StateT Source (Except DeflateError)

def bit : Reader Nat := fun s =>
  match s.count, s.bytes with
  | count + 1, _ => .ok (s.held % 2, { s with held := s.held / 2, count := count })
  | 0, [] => .error .incomplete
  | 0, b :: rest => .ok (b.toNat % 2, { held := b.toNat / 2, count := 7, bytes := rest })

/-- A number of `width` bits, the low bit first. -/
def number : Nat → Reader Nat
  | 0 => return 0
  | width + 1 => do
    let low ← bit
    let high ← number width
    return low + 2 * high

/-- The next `len` whole bytes. Bits in front of them are passed over. -/
def wholeBytes (len : Nat) : Reader Bytes := fun s =>
  let bytes := s.bytes.take len
  if bytes.length = len then .ok (bytes, { bytes := s.bytes.drop len }) else .error .incomplete

/-- Goes on only where `ok` holds. -/
def demand (ok : Bool) : Reader Unit := if ok then return else throw .corrupt

/-! ## Prefix codes -/

/-- For each length from one bit on, the symbols with codes of that length. -/
abbrev Code := List (Array Nat)

namespace Code

def maxLength : Nat := 15

/-- The code whose symbol `i` has a code of `lengths[i]` bits, or no code if that is 0. -/
def ofLengths (lengths : List Nat) : Code :=
  (List.range maxLength).map fun n =>
    ((lengths.zipIdx.filter fun l => l.1 = n + 1).map (·.2)).toArray

def symbols (c : Code) : Nat := c.foldl (fun count here => count + here.size) 0

/-- How many strings of `maxLength` bits begin with a code, if no code begins another. -/
def room (c : Code) : Nat := c.foldl (fun room here => 2 * room + here.size) 0

/-- Whether every such string begins with one code. -/
def complete (c : Code) : Bool := c.room = 1 <<< maxLength

/-- A code of one symbol, or of none, need not be complete. -/
def usable (c : Code) : Bool := c.complete || c.symbols ≤ 1

/-- A symbol with a code no shorter than the first symbols of `c`. The bits read so far
lie `ahead` of the first code that begins with as many. -/
def symbolFrom : Code → Nat → Reader Nat
  | [], _ => throw .corrupt
  | here :: longer, ahead => do
    let ahead := 2 * ahead + (← bit)
    match here[ahead]? with
    | some symbol => return symbol
    | none => symbolFrom longer (ahead - here.size)

def symbol (c : Code) : Reader Nat := symbolFrom c 0

end Code

/-- The codes of a block. -/
structure Codes where
  /-- Of bytes, the end and lengths. -/
  contents : Code
  distances : Code

/-- The codes of a block that describes none. -/
def Codes.fixed : Codes where
  contents := Code.ofLengths
    (List.replicate 144 8 ++ List.replicate 112 9 ++ List.replicate 24 7 ++ List.replicate 8 8)
  distances := Code.ofLengths (List.replicate 32 5)

/-! ## Codes that a block describes -/

/-- A run of code lengths, where `last?` is the one before. -/
def lengthRun (c : Code) (last? : Option Nat) : Reader (List Nat) := do
  match ← c.symbol with
  | 16 =>
    match last? with
    | none => throw .corrupt
    | some last => return List.replicate (3 + (← number 2)) last
  | 17 => return List.replicate (3 + (← number 3)) 0
  | 18 => return List.replicate (11 + (← number 7)) 0
  | length => return [length]

/-- As many code lengths as are wanted. No run is empty, so no more runs are. -/
def codeLengths (c : Code) (wanted : Nat) : Reader (List Nat) := do
  let found ← (List.range wanted).foldlM (fun found _ =>
    if found.length < wanted then do return found ++ (← lengthRun c found.getLast?)
    else return found) []
  demand (found.length = wanted)
  return found

/-- The order in which the code of the code lengths is described. -/
def lengthOrder : List Nat := [16, 17, 18, 0, 8, 7, 9, 6, 10, 5, 11, 4, 12, 3, 13, 2, 14, 1, 15]

def describedCodes : Reader Codes := do
  let contents := 257 + (← number 5)
  let distances := 1 + (← number 5)
  let described := lengthOrder.take (4 + (← number 4))
  demand (contents ≤ 286 ∧ distances ≤ 30)
  let lengths ← described.mapM fun _ => number 3
  let lengthOf (symbol : Nat) : Nat := ((described.zip lengths).lookup symbol).getD 0
  let code := Code.ofLengths ((List.range lengthOrder.length).map lengthOf)
  demand code.complete
  let lengths ← codeLengths code (contents + distances)
  let codes : Codes :=
    ⟨Code.ofLengths (lengths.take contents), Code.ofLengths (lengths.drop contents)⟩
  demand (codes.contents.usable && codes.distances.usable)
  return codes

/-! ## Blocks -/

/-- The length that symbol `257 + i` stands for. -/
def lengthOf (i : Nat) : Reader Nat :=
  if i < 8 then return 3 + i
  else if i < 28 then do
    let width := i / 4 - 1
    return 3 + (4 + i % 4) <<< width + (← number width)
  else if i = 28 then return 258
  else throw .corrupt

/-- The distance that symbol `i` stands for. -/
def distanceOf (i : Nat) : Reader Nat :=
  if i < 2 then return 1 + i
  else if i < 30 then do
    let width := i / 2 - 1
    return 1 + (2 + i % 2) <<< width + (← number width)
  else throw .corrupt

/-- `out` with `len` bytes repeated from `distance` back, which may be bytes just added. -/
def repeated (distance : Nat) : Nat → Array UInt8 → Array UInt8
  | 0, out => out
  | len + 1, out => repeated distance len (out.push (out.getD (out.size - distance) 0))

/-- `out` with what at most `fuel` symbols of a block stand for. -/
def coded (codes : Codes) : Nat → Array UInt8 → Reader (Array UInt8)
  | 0, _ => throw .incomplete
  | fuel + 1, out => do
    let symbol ← codes.contents.symbol
    if symbol < 256 then coded codes fuel (out.push (UInt8.ofNat symbol))
    else if symbol = 256 then return out
    else
      let len ← lengthOf (symbol - 257)
      let distance ← distanceOf (← codes.distances.symbol)
      demand (distance ≤ out.size)
      coded codes fuel (repeated distance len out)

/-- `out` with the plain bytes of a block, behind their count and its complement. -/
def plain (out : Array UInt8) : Reader (Array UInt8) := do
  let sizes ← wholeBytes 4
  let len := Bytes.ofLe (sizes.take 2)
  demand (len + Bytes.ofLe (sizes.drop 2) = 0xFFFF)
  return out ++ (← wholeBytes len).toArray

/-- `out` with a block of the given kind, behind its mark. -/
def block (fuel kind : Nat) (out : Array UInt8) : Reader (Array UInt8) :=
  match kind with
  | 0 => plain out
  | 1 => coded Codes.fixed fuel out
  | 2 => do coded (← describedCodes) fuel out
  | _ => throw .corrupt

/-- `out` with at most `fuel` blocks. -/
def blocks : Nat → Array UInt8 → Reader (Array UInt8)
  | 0, _ => throw .incomplete
  | fuel + 1, out => do
    let last ← bit
    let out ← block fuel (← number 2) out
    if last = 1 then return out else blocks fuel out

/-- What the stream at the head of `bytes` holds, and the bytes behind it. Symbols and
blocks take a bit each at least, so the bits of `bytes` are fuel enough. -/
def inflate (bytes : Bytes) : Except DeflateError (Bytes × Bytes) := do
  let (out, left) ← blocks (8 * bytes.length + 1) #[] { bytes := bytes }
  return (out.toList, left.bytes)

end Deflate

end ApuScore
