import ApuScore.Archive.Deflate
/-
  Gzip members.

  A member is a header, a deflate stream and a trailer with a checksum and a length.
  Bytes behind the first member are left alone. A member that ends in its header or
  trailer is cut short; one that ends in its stream is incomplete.
-/

namespace ApuScore

/-- Why a gzip member is refused. -/
inductive GzipError where
  | badHeader
  | longField
  | truncated
  | stream (e : DeflateError)
  | badChecksum
  deriving DecidableEq, Repr

def GzipError.message : GzipError → String
  | .badHeader => "invalid gzip header"
  | .longField => "gzip header field too long"
  | .truncated => "unexpected end of file"
  | .stream e => e.message
  | .badChecksum => "corrupt gzip stream does not have a matching checksum"

namespace Gzip

/-- Goes on only where `ok` holds. -/
def demand (e : GzipError) (ok : Bool) : Except GzipError Unit := if ok then .ok () else .error e

/-- The first two bytes of every member. -/
def magic : Bytes := [0x1F, 0x8B]

/-- Eight shifts of the reflected CRC-32 register. -/
def crcShifts : Nat → UInt32 → UInt32
  | 0, c => c
  | n + 1, c => crcShifts n (if c &&& 1 = 1 then (c >>> 1) ^^^ 0xEDB88320 else c >>> 1)

/-- The CRC-32 of a byte string. -/
def crc32 (bytes : Bytes) : Nat :=
  ((bytes.foldl (fun c b => crcShifts 8 (c ^^^ b.toUInt32)) 0xFFFFFFFF) ^^^ 0xFFFFFFFF).toNat

def take (len : Nat) (bytes : Bytes) : Except GzipError (Bytes × Bytes) :=
  let head := bytes.take len
  if head.length = len then .ok (head, bytes.drop len) else .error .truncated

/-- The longest text in a header. -/
def maxText : Nat := 65535

/-- What follows the text at the head of `bytes` and the zero byte that ends it. -/
def dropText (bytes : Bytes) : Except GzipError Bytes :=
  let text := bytes.takeWhile (· != 0)
  if maxText < text.length then .error .longField
  else
    match bytes.drop text.length with
    | [] => .error .truncated
    | _ :: rest => .ok rest

def flag (flags : UInt8) (bit : Nat) : Bool := flags.toNat.testBit bit

def dropExtra (bytes : Bytes) : Except GzipError Bytes := do
  let (len, rest) ← take 2 bytes
  let (_, rest) ← take (Bytes.ofLe len) rest
  return rest

/-- What follows the checksum of the header itself. -/
def dropSum (header bytes : Bytes) : Except GzipError Bytes := do
  let (sum, rest) ← take 2 bytes
  demand .badChecksum (Bytes.ofLe sum = crc32 header % 0x10000)
  return rest

def dropIf (present : Bool) (drop : Bytes → Except GzipError Bytes) (bytes : Bytes) :
    Except GzipError Bytes :=
  if present then drop bytes else .ok bytes

/-- What follows the header. The flags announce an extra field, a name, a comment
and a checksum. -/
def dropHeader (bytes : Bytes) : Except GzipError Bytes := do
  let (start, rest) ← take 10 bytes
  let flags := start.getD 3 0
  demand .badHeader (start.take 3 = magic ++ [8] ∧ flags < 32)
  let rest ← dropIf (flag flags 2) dropExtra rest
  let rest ← dropIf (flag flags 3) dropText rest
  let rest ← dropIf (flag flags 4) dropText rest
  dropIf (flag flags 1) (dropSum (bytes.take (bytes.length - rest.length))) rest

/-- The contents of the member at the head of `bytes`. -/
def inflate (bytes : Bytes) : Except GzipError Bytes := do
  let rest ← dropHeader bytes
  let (data, rest) ← (Deflate.inflate rest).mapError .stream
  let (trailer, _) ← take 8 rest
  demand .badChecksum (trailer = Bytes.le 4 (crc32 data) ++ Bytes.le 4 data.length)
  return data

/-- The same, with the words of a fault. -/
def unpack (bytes : Bytes) : Except String Bytes := (inflate bytes).mapError GzipError.message

end Gzip

end ApuScore
