import ApuScore.Chip.Clock
/-
  The frame sequencer — the slow clock behind envelopes, sweeps and counters.

  Every sample adds the step rate to the phase, and a step fires once the phase
  exceeds the sample rate, which is then taken off; so no rounding ever builds
  up. Every step is a quarter frame and every second one a half frame too.
  Selecting a mode clears the phase and makes the next sample both.
-/

namespace ApuScore

/-- What fires at a sample. -/
structure Tick where
  /-- Envelopes and the linear counter advance. -/
  quarter : Bool
  /-- Length counters and sweeps advance. -/
  half : Bool
  deriving DecidableEq, Repr

structure Sequencer where
  region : Region
  fiveStep : Bool := false
  phase : Nat := 0
  steps : Nat := 0
  /-- Whether a mode was selected since the last sample. -/
  selected : Bool := false
  deriving DecidableEq, Repr

namespace Sequencer

/-- Steps per second. -/
def rate (s : Sequencer) : Nat :=
  match s.region, s.fiveStep with
  | .ntsc, false => 240
  | .ntsc, true => 192
  | .pal, false => 200
  | .pal, true => 160

def select (fiveStep : Bool) (s : Sequencer) : Sequencer :=
  { s with fiveStep := fiveStep, phase := 0, steps := 0, selected := true }

/-- Whether the next sample completes a step. -/
def steps? (s : Sequencer) : Bool := sampleRate < s.phase + s.rate

/-- What fires at the next sample. -/
def tick (s : Sequencer) : Tick :=
  { quarter := s.selected || s.steps?
    half := s.selected || (s.steps? && s.steps % 2 == 1) }

def advance (s : Sequencer) : Sequencer :=
  if s.steps? then
    { s with phase := s.phase + s.rate - sampleRate, steps := s.steps + 1, selected := false }
  else { s with phase := s.phase + s.rate, selected := false }

end Sequencer

end ApuScore
