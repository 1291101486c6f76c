import ApuScore.Score.Settings
import ApuScore.Score.Timing
/-
  Pitch — between timer periods, frequencies and MIDI pitches.

  A voice with period `t` sounds at `clock / (divisor * (t + 1))` Hz, the divisor
  being 16 on the pulses and 32 on the triangle. Pitch 69 is 440 Hz and twelve
  pitches make an octave. Pitch 0 is silence.
-/

namespace ApuScore

def periodToFrequency (clock : Clock) (period : Nat) (divisor : Float) : Float :=
  floatOf clock.hz / (divisor * (floatOf period + 1.0))

/-- The pitch nearest to a frequency, or silence outside `low` to `high`. -/
def frequencyToMidi (frequency : Float) (low high : UInt8) : UInt8 :=
  let m := (69.0 + 12.0 * (frequency / 440.0).log2).round
  if floatOf low.toNat ≤ m && m ≤ floatOf high.toNat then m.toUInt8 else 0

/-- The period nearest to a pitch, within 16 bits. -/
def midiToPeriod (clock : Clock) (pitch : UInt8) (divisor : Float) : Nat :=
  if pitch = 0 then 0
  else
    let frequency := 440.0 * Float.pow 2.0 ((floatOf pitch.toNat - 69.0) / 12.0)
    (floatOf clock.hz / (divisor * frequency) - 1.0).round.toUInt16.toNat

/-- What divides the clock on a voice with a timer. -/
def timerDivisor : Voice → Float
  | .triangle => 32.0
  | _ => 16.0

end ApuScore
