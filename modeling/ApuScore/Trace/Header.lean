import ApuScore.Error
import ApuScore.Chip.Clock
/-
  The trace header — the fields of a version 1.61 file that matter here.

  Every field has a fixed offset. `Header.read` reads the fields, in a fixed
  order, and `Header.check` compares them with what is supported and with the
  length of the file.
-/

namespace ApuScore

inductive HeaderField where
  | ident
  | eofOffset
  | version
  | gd3Offset
  | totalSamples
  | loopOffset
  | loopSamples
  | rate
  | dataOffset
  | volume
  | loopBase
  | loopModifier
  | nesApuClock
  deriving DecidableEq, Repr

namespace HeaderField

def all : List HeaderField :=
  [.ident, .eofOffset, .version, .gd3Offset, .totalSamples, .loopOffset, .loopSamples, .rate,
   .dataOffset, .volume, .loopBase, .loopModifier, .nesApuClock]

def offset : HeaderField → Nat
  | .ident => 0x00
  | .eofOffset => 0x04
  | .version => 0x08
  | .gd3Offset => 0x14
  | .totalSamples => 0x18
  | .loopOffset => 0x1C
  | .loopSamples => 0x20
  | .rate => 0x24
  | .dataOffset => 0x34
  | .volume => 0x7C
  | .loopBase => 0x7E
  | .loopModifier => 0x7F
  | .nesApuClock => 0x84

def size : HeaderField → Nat
  | .volume => 2
  | .loopBase => 1
  | .loopModifier => 1
  | _ => 4

def name : HeaderField → String
  | .ident => "ident"
  | .eofOffset => "eof_offset"
  | .version => "version"
  | .gd3Offset => "gd3_offset"
  | .totalSamples => "total_samples"
  | .loopOffset => "loop_offset"
  | .loopSamples => "loop_samples"
  | .rate => "rate"
  | .dataOffset => "data_offset"
  | .volume => "volume"
  | .loopBase => "loop_base"
  | .loopModifier => "loop_modifier"
  | .nesApuClock => "nes_apu_clock"

end HeaderField

/-- The `len` bytes from `off` on, read for `what`. -/
def readWindow (what : String) (off len : Nat) (bytes : Bytes) : Except FormatError Bytes :=
  match Bytes.window off len bytes with
  | some w => .ok w
  | none => .error (.outOfRange what off len (bytes.length - off))

/-- The little-endian number of `len` bytes at `off`, read for `what`. -/
def readNumber (what : String) (off len : Nat) (bytes : Bytes) : Except FormatError Nat :=
  (readWindow what off len bytes).map Bytes.ofLe

def HeaderField.read (f : HeaderField) (bytes : Bytes) : Except FormatError Nat :=
  readNumber f.name f.offset f.size bytes

def identTag : Bytes := [0x56, 0x67, 0x6D, 0x20]

/-- The supported version, two binary-coded digits after the point. -/
def supportedVersion : Nat := 0x161

/-- Two flag bits above the clock rate proper. -/
def clockFlagUnit : Nat := 0x40000000

structure Header where
  eofOffset : Nat
  version : Nat
  gd3Offset : Nat
  totalSamples : Nat
  loopOffset : Nat
  loopSamples : Nat
  rate : Nat
  /-- Where the commands start. -/
  dataStart : Nat
  /-- The clock rate, with its flag bits. -/
  apuClock : Nat
  deriving DecidableEq, Repr

namespace Header

/-- Where the commands start, given the data offset field. -/
def startOf (dataOffset : Nat) : Nat :=
  if dataOffset = 0 then 0x40 else HeaderField.dataOffset.offset + dataOffset

/-- Refuses a tag that is not the trace tag. -/
def checkTag (tag : Bytes) : Except FormatError Unit :=
  if tag = identTag then .ok () else .error (.badIdent tag)

/-- The header of `bytes`, unchecked but for the tag. -/
def read (bytes : Bytes) : Except FormatError Header := do
  let tag ← readWindow HeaderField.ident.name 0 4 bytes
  checkTag tag
  let dataOffset ← HeaderField.dataOffset.read bytes
  let eofOffset ← HeaderField.eofOffset.read bytes
  let version ← HeaderField.version.read bytes
  let gd3Offset ← HeaderField.gd3Offset.read bytes
  let totalSamples ← HeaderField.totalSamples.read bytes
  let loopOffset ← HeaderField.loopOffset.read bytes
  let loopSamples ← HeaderField.loopSamples.read bytes
  let rate ← HeaderField.rate.read bytes
  let apuClock ← HeaderField.nesApuClock.read bytes
  return { eofOffset, version, gd3Offset, totalSamples, loopOffset, loopSamples, rate,
           dataStart := startOf dataOffset, apuClock }

/-- The flag bits of the clock field, in place. -/
def clockFlags (h : Header) : Nat := h.apuClock - h.apuClock % clockFlagUnit

/-- The clock field without its flag bits. -/
def clockHz (h : Header) : Nat := h.apuClock % clockFlagUnit

/-- The clock of a trace of `len` bytes with this header, if it is supported. -/
def check (h : Header) (len : Nat) : Except FormatError Clock :=
  let declared := h.eofOffset + HeaderField.eofOffset.offset
  if declared ≠ len then .error (.eofMismatch declared len)
  else if h.version ≠ supportedVersion then .error (.unsupportedVersion h.version)
  else if h.rate ≠ 0 then .error (.unsupportedRate h.rate)
  else if h.clockFlags ≠ 0 then .error (.unsupportedFlags h.clockFlags)
  else match Clock.ofHz? h.clockHz with
    | some c => .ok c
    | none => .error (.unsupportedClock h.clockHz)

end Header

end ApuScore
