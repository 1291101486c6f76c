import ApuScore.Score.Replay
import ApuScore.Score.Pitch
/-
  Expressive scores — pitch, velocity and timbre of each voice.

  The pitch of a pulse or of the triangle is a MIDI pitch; that of the noise is
  the inverted period as it stands in the raw score. Zero is silence.
-/

namespace ApuScore

structure Tone where
  pitch : UInt8
  velocity : UInt8
  timbre : UInt8
  deriving DecidableEq, Repr

namespace Tone

def zero : Tone := ⟨0, 0, 0⟩

def toBytes (t : Tone) : List UInt8 := [t.pitch, t.velocity, t.timbre]

end Tone

abbrev Chord := Voices Tone

/-- A score of pitches, velocities and timbres. -/
structure ExpressiveScore where
  /-- Frames per second. -/
  rate : Float
  /-- The length in samples, whatever the rate. -/
  sampleCount : Nat
  frames : List Chord
  deriving Repr

/-- The tone of a slot whose pitch is `pitch`. Silence has no velocity. -/
def Slot.tone (s : Slot) (pitch : UInt8) : Tone :=
  ⟨pitch, if pitch = 0 then 0 else s.volume, s.timbre⟩

/-- The pitch of a slot of a voice with a timer. -/
def Slot.pitch (clock : Clock) (settings : Settings) (v : Voice) (s : Slot) : UInt8 :=
  frequencyToMidi (periodToFrequency clock s.period (timerDivisor v))
    settings.midiLow settings.midiHigh

def Frame.chord (clock : Clock) (settings : Settings) (f : Frame) : Chord :=
  let timed (v : Voice) (s : Slot) : Tone := s.tone (s.pitch clock settings v)
  { pulse1 := timed .pulse1 f.pulse1
    pulse2 := timed .pulse2 f.pulse2
    triangle := timed .triangle f.triangle
    noise := f.noise.tone f.noise.low }

def requireSampleRate (rate : Float) : Except ProtocolError Unit :=
  if isSampleRate rate then .ok () else .error (.notAtSampleRate rate)

/-- The expressive score of a raw score at the sample rate. -/
def RawScore.express (settings : Settings) (s : RawScore) :
    Except ProtocolError ExpressiveScore := do
  requireSampleRate s.rate
  return { rate := s.rate, sampleCount := s.sampleCount
           frames := s.frames.map (Frame.chord s.clock settings) }

/-- The slot of a tone whose period is `period`. -/
def Tone.slot (t : Tone) (period : Nat) : Slot :=
  ⟨UInt8.ofNat (period / 256 % 8), UInt8.ofNat (period % 256), t.velocity, t.timbre⟩

/-- The raw frame of a chord; periods are cut to eleven bits. -/
def Chord.frame (clock : Clock) (c : Chord) : Frame :=
  let timed (v : Voice) (t : Tone) : Slot :=
    t.slot (midiToPeriod clock t.pitch (timerDivisor v))
  { pulse1 := timed .pulse1 c.pulse1
    pulse2 := timed .pulse2 c.pulse2
    triangle := timed .triangle c.triangle
    noise := ⟨0, c.noise.pitch, c.noise.velocity, c.noise.timbre⟩ }

/-- The raw score of an expressive score, at the same rate. -/
def ExpressiveScore.toRaw (clock : Clock) (s : ExpressiveScore) : RawScore :=
  { clock := clock, rate := s.rate, sampleCount := s.sampleCount
    frames := s.frames.map (Chord.frame clock) }

end ApuScore
