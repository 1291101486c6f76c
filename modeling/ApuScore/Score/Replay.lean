import ApuScore.Chip.Apu
import ApuScore.Log.Write
import ApuScore.Score.Timing
/-
  Replay — the raw score of a parameter log.

  The log is played on the chip. At the first sample of a wait the chip steps,
  then takes the writes made since the wait before, then shows its frame; the
  other samples only step and show. Waits of zero change nothing. Writes behind
  the last wait reach no sample and are only checked.
-/

namespace ApuScore

/-- What the voices play, frame by frame, under a clock. -/
structure RawScore where
  clock : Clock
  /-- Frames per second. -/
  rate : Float
  /-- The length in samples, whatever the rate. -/
  sampleCount : Nat
  frames : List Frame
  deriving Repr

namespace RawScore

def period? (s : RawScore) (index : Nat) (v : Voice) : Option Nat :=
  (s.frames[index]?).map fun f => (f.get v).period

end RawScore

namespace Apu

def writeAll (writes : List ParamWrite) (a : Apu) : Except ProtocolError Apu :=
  writes.foldlM (fun a w => a.write w.channel w.param w.value) a

/-- The chip after `n` samples without writes, their frames in front of `found`,
latest first. -/
def run : Nat → Apu → List Frame → Apu × List Frame
  | 0, a, found => (a, found)
  | n + 1, a, found => run n a.step (a.step.frame :: found)

end Apu

structure Replay where
  apu : Apu
  /-- Writes since the last wait, latest first. -/
  writes : List ParamWrite := []
  /-- Frames so far, latest first. -/
  frames : List Frame := []

def Replay.take (r : Replay) : Step ParamWrite → Except ProtocolError Replay
  | .act w => .ok { r with writes := w :: r.writes }
  | .wait 0 => .ok r
  | .wait (n + 1) =>
    match r.apu.step.writeAll r.writes.reverse with
    | .error e => .error e
    | .ok apu =>
      let (apu, frames) := apu.run n (apu.frame :: r.frames)
      .ok { apu := apu, writes := [], frames := frames }

def replaySteps (clock : Clock) (steps : List (Step ParamWrite)) :
    Except ProtocolError (List Frame) := do
  let r ← steps.foldlM Replay.take { apu := Apu.new clock }
  let _ ← r.apu.writeAll r.writes.reverse
  return r.frames.reverse

/-- The raw score of a parameter log, one frame per sample. -/
def replay (log : ParamLog) : Except ProtocolError RawScore := do
  let t ← Timeline.ofEvents log
  let frames ← replaySteps t.clock t.steps
  return { clock := t.clock, rate := floatOf sampleRate
           sampleCount := totalSamples t.steps, frames := frames }

end ApuScore
