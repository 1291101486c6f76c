import ApuScore.Trace.Codec
/-
  Cleaning — a raw dump made fit for decoding.

  Loop, rate and volume fields are cleared and the clock loses its flag bits.
  Writes to expansion chips, data blocks and writes to dropped channels are taken
  out of the commands; the end-of-file and tag offsets move back by the bytes
  taken out.
-/

namespace ApuScore

/-- The channels that cleaning drops. -/
structure CleaningOptions where
  dropPulse1 : Bool := false
  dropPulse2 : Bool := false
  dropTriangle : Bool := false
  dropNoise : Bool := false
  dropDmc : Bool := true
  deriving DecidableEq, Repr

/-- Whether writes to a register stay. The two control registers always do. -/
def CleaningOptions.keeps (o : CleaningOptions) (register : UInt8) : Bool :=
  match Channel.owner? register with
  | some .pulse1 => !o.dropPulse1
  | some .pulse2 => !o.dropPulse2
  | some .triangle => !o.dropTriangle
  | some .noise => !o.dropNoise
  | some .dmc => !o.dropDmc
  | some .status => true
  | some .frameCounter => true
  | none => false

/-- A command of a dump, as cleaning sees it. -/
inductive DumpCommand where
  | stop
  | stays (len : Nat)
  | goes (len : Nat)
  deriving DecidableEq, Repr

structure Stretch where
  start : Nat
  len : Nat
  deriving DecidableEq, Repr

namespace Trace

/-- The command with opcode `op` at `off`; `rest` follows the opcode. -/
def dumpCommand (o : CleaningOptions) (off : Nat) (op : UInt8) (rest : Bytes) :
    Except FormatError DumpCommand :=
  if op = 0x54 ∨ op = 0xA0 then .ok (.goes 3)
  else if op = 0x61 then .ok (.stays 3)
  else if op = 0x62 ∨ op = 0x63 ∨ (0x70 ≤ op ∧ op ≤ 0x7F) then .ok (.stays 1)
  else if op = 0x66 then .ok .stop
  else if op = 0x67 then do
    let size ← takeWindow "data_block" (off + 3) 4 (rest.drop 2)
    return .goes (7 + Bytes.ofLe size)
  else if op = 0xB4 then do
    let register ← takeWindow "apu_write" (off + 1) 1 rest
    return if o.keeps (register.headD 0) then .stays 3 else .goes 3
  else .error (.unknownOpcode op off)

/-- The stretches to take out of `bytes`, which lie at `off`, behind those already
found, latest first. The first `skip` bytes belong to the command before. -/
def stretchesFrom (o : CleaningOptions) (off skip : Nat) (found : List Stretch) :
    Bytes → Except FormatError (List Stretch)
  | [] => .error (.outOfRange "command" (off + skip) 1 0)
  | op :: rest =>
    match skip with
    | skip + 1 => stretchesFrom o (off + 1) skip found rest
    | 0 =>
      match dumpCommand o off op rest with
      | .error e => .error e
      | .ok .stop => .ok found.reverse
      | .ok (.stays len) => stretchesFrom o (off + 1) (len - 1) found rest
      | .ok (.goes len) => stretchesFrom o (off + 1) (len - 1) (⟨off, len⟩ :: found) rest

/-- The pieces of `bytes`, which lie at `off`, around the stretches, behind those
already found, latest first. -/
def piecesFrom (off : Nat) (bytes : Bytes) (found : List Bytes) : List Stretch → List Bytes
  | [] => (bytes :: found).reverse
  | s :: rest =>
    piecesFrom (s.start + s.len) (bytes.drop (s.start - off + s.len))
      (bytes.take (s.start - off) :: found) rest

def cutOut (stretches : List Stretch) (bytes : Bytes) : Bytes :=
  (piecesFrom 0 bytes [] stretches).flatten

/-- `bytes` with the cleared header fields. -/
def clearHeader (header : Header) (bytes : Bytes) : Bytes :=
  let zero4 := Bytes.le 4 0
  let bytes := Bytes.patch HeaderField.loopOffset.offset zero4 bytes
  let bytes := Bytes.patch HeaderField.loopSamples.offset zero4 bytes
  let bytes := Bytes.patch HeaderField.rate.offset zero4 bytes
  let bytes := Bytes.patch HeaderField.volume.offset zero4 bytes
  Bytes.patch HeaderField.nesApuClock.offset (Bytes.le 4 header.clockHz) bytes

/-- A 32-bit offset moved back by `count` bytes. -/
def moveBack (offset count : Nat) : Nat := (offset + 0x100000000 - count % 0x100000000) % 0x100000000

/-- The cleaned trace and the number of commands taken out. -/
def clean (o : CleaningOptions) (bytes : Bytes) : Except FormatError (Bytes × Nat) := do
  let header ← Header.read bytes
  let stretches ← stretchesFrom o header.dataStart 0 [] (bytes.drop header.dataStart)
  let gone := stretches.foldr (fun s total => s.len + total) 0
  let cleaned := cutOut stretches (clearHeader header bytes)
  let cleaned := Bytes.patch HeaderField.eofOffset.offset
    (Bytes.le 4 (moveBack header.eofOffset gone)) cleaned
  let cleaned := if header.gd3Offset = 0 then cleaned
    else Bytes.patch HeaderField.gd3Offset.offset
      (Bytes.le 4 (moveBack header.gd3Offset gone)) cleaned
  return (cleaned, stretches.length)

end Trace

end ApuScore
