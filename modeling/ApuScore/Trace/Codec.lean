import ApuScore.Trace.Header
import ApuScore.Trace.Command
/-
  The trace codec — register logs as version 1.61 traces and back.

  Reading checks the header, reads commands up to the end marker, joins waits
  that touch, and wants the waits to add up to the declared total. A joined wait
  that passes 32 bits is cut to the longest; the total then fails its check.
  Writing builds a fresh header around the commands.
-/

namespace ApuScore

namespace Trace

/-- The steps of the commands in `bytes`, which lie at `off`, behind those already
read, latest first. The first `skip` bytes belong to the command before. -/
def stepsFrom (off skip : Nat) (found : List (Step RegisterOp)) :
    Bytes → Except FormatError (List (Step RegisterOp))
  | [] => .error (.outOfRange "command" (off + skip) 1 0)
  | b :: rest =>
    match skip with
    | skip + 1 => stepsFrom (off + 1) skip found rest
    | 0 =>
      match Command.read off (b :: rest) with
      | .error e => .error e
      | .ok (.stop, _) => .ok found.reverse
      | .ok (.step s, len) => stepsFrom (off + 1) (len - 1) (s :: found) rest

/-- `step` in front of `rest`; two waits that meet become one. -/
def joinWait (step : Step RegisterOp) (rest : List (Step RegisterOp)) :
    List (Step RegisterOp) :=
  match step, rest with
  | .wait m, .wait n :: rest => .wait (m + n) :: rest
  | s, rest => s :: rest

/-- `steps` with every run of waits joined into one. -/
def joinWaits (steps : List (Step RegisterOp)) : List (Step RegisterOp) :=
  steps.foldr joinWait []

/-- The step as a log holds it: a wait of 32 bits, the longest in place of a longer
one. -/
def capWait : Step RegisterOp → Step RegisterOp
  | .wait n => .wait (min n 0xFFFFFFFF)
  | .act op => .act op

/-- Refuses waits that do not add up to the declared total. -/
def checkTotal (header : Header) (total : Nat) : Except FormatError Unit :=
  if total = header.totalSamples then .ok ()
  else .error (.sampleCountMismatch header.totalSamples total)

def decode (bytes : Bytes) : Except FormatError RegisterLog := do
  let header ← Header.read bytes
  let clock ← header.check bytes.length
  let steps ← stepsFrom header.dataStart 0 [] (bytes.drop header.dataStart)
  checkTotal header (totalSamples steps)
  return Timeline.toEvents ⟨clock, (joinWaits steps).map capWait⟩

/-- The size of a fresh header; the commands start behind it. -/
def headerSize : Nat := 0xC0

/-- The header of a trace of `len` bytes. -/
def headerBytes (clock : Clock) (total len : Nat) : Bytes :=
  identTag ++ Bytes.le 4 (len - HeaderField.eofOffset.offset) ++ Bytes.le 4 supportedVersion ++
    List.replicate 12 0 ++ Bytes.le 4 total ++ List.replicate 24 0 ++
    Bytes.le 4 (headerSize - HeaderField.dataOffset.offset) ++ List.replicate 76 0 ++
    Bytes.le 4 clock.hz ++ List.replicate 56 0

/-- The commands of a timeline and the end marker. -/
def body (steps : List (Step RegisterOp)) : Bytes :=
  steps.flatMap Step.bytes ++ [0x66]

/-- The trace of a timeline. Its waits must fit the 32-bit total. -/
def ofTimeline (t : Timeline RegisterOp) : Except FormatError Bytes :=
  let total := totalSamples t.steps
  if total ≤ 0xFFFFFFFF then
    let commands := body t.steps
    .ok (headerBytes t.clock total (headerSize + commands.length) ++ commands)
  else .error (.sampleCountMismatch 0xFFFFFFFF total)

def encode (log : RegisterLog) : Except Error Bytes := do
  let t ← liftProtocol (Timeline.ofEvents log)
  liftFormat (ofTimeline t)

/-- A trace cut down to `count` events behind its clock, the first `start` of them
left out. -/
def excerpt (bytes : Bytes) (count start : Nat) : Except Error Bytes := do
  let log ← liftFormat (decode bytes)
  encode (log.take 1 ++ ((log.drop 1).drop start).take count)

end Trace

end ApuScore
