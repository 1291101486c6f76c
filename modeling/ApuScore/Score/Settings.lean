import ApuScore.Error
/-
  Reducer settings — how a raw score is brought down to notes and frames.
-/

namespace ApuScore

/-- Pitch range and tempo search. -/
structure Settings where
  /-- Pitches outside `midiLow` to `midiHigh` become silence. -/
  midiLow : UInt8 := 21
  midiHigh : UInt8 := 108
  /-- Only longer intervals between onsets count. -/
  minInterval : Nat := 44
  /-- The fewest intervals that tempo estimation makes do with. -/
  minIntervals : Nat := 10
  /-- The first candidate rate, in frames per second. -/
  rateMin : Float := 1.0
  rateMax : Float := 24.0
  rateStep : Float := 0.001
  deriving Repr

/-- The settings, if their candidate rates are finite, positive and ascending. -/
def Settings.check (s : Settings) : Except Error Unit :=
  if !(s.rateStep.isFinite && 0.0 < s.rateStep) then .error (.badSetting .rateStep)
  else if !(s.rateMin.isFinite && 0.0 < s.rateMin) then .error (.badSetting .rateMin)
  else if !(s.rateMax.isFinite && s.rateMin ≤ s.rateMax) then .error (.badSetting .rateMax)
  else .ok ()

end ApuScore
