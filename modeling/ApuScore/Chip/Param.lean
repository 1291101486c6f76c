import ApuScore.Chip.Channel
/-
  Parameters — the named hardware functions behind the chip's registers.

  A channel and a parameter together name one setting. Some parameters exist on
  several channels; the five enables and the frame mode live in the control
  registers.
-/

namespace ApuScore

/-- A named hardware function. -/
inductive Param where
  | duty
  | lengthHalt
  | constantVolume
  | volume
  | sweepEnable
  | sweepPeriod
  | sweepNegate
  | sweepShift
  | timerLow
  | lengthLoad
  | timerHigh
  | linearReload
  | noiseLoop
  | noisePeriod
  | dmcIrq
  | dmcLoop
  | dmcFrequency
  | dmcLoadCounter
  | dmcSampleAddress
  | dmcSampleLength
  | enableDmc
  | enableNoise
  | enableTriangle
  | enablePulse2
  | enablePulse1
  | frameMode
  | frameIrqInhibit
  deriving DecidableEq, Repr

namespace Param

def all : List Param :=
  [.duty, .lengthHalt, .constantVolume, .volume, .sweepEnable, .sweepPeriod, .sweepNegate,
   .sweepShift, .timerLow, .lengthLoad, .timerHigh, .linearReload, .noiseLoop, .noisePeriod,
   .dmcIrq, .dmcLoop, .dmcFrequency, .dmcLoadCounter, .dmcSampleAddress, .dmcSampleLength,
   .enableDmc, .enableNoise, .enableTriangle, .enablePulse2, .enablePulse1, .frameMode,
   .frameIrqInhibit]

theorem mem_all (p : Param) : p ∈ all := by
  cases p <;> decide

/-- The two-letter code of a parameter in listings and messages. -/
def code : Param → String
  | .duty => "du"
  | .lengthHalt => "lh"
  | .constantVolume => "cv"
  | .volume => "vo"
  | .sweepEnable => "se"
  | .sweepPeriod => "sp"
  | .sweepNegate => "sn"
  | .sweepShift => "ss"
  | .timerLow => "tl"
  | .lengthLoad => "ll"
  | .timerHigh => "th"
  | .linearReload => "lr"
  | .noiseLoop => "nl"
  | .noisePeriod => "np"
  | .dmcIrq => "iq"
  | .dmcLoop => "lo"
  | .dmcFrequency => "fr"
  | .dmcLoadCounter => "lc"
  | .dmcSampleAddress => "sa"
  | .dmcSampleLength => "sl"
  | .enableDmc => "dm"
  | .enableNoise => "no"
  | .enableTriangle => "tr"
  | .enablePulse2 => "p2"
  | .enablePulse1 => "p1"
  | .frameMode => "mo"
  | .frameIrqInhibit => "iq"

/-- The channel that an enable gates. -/
def gates? : Param → Option Channel
  | .enablePulse1 => some .pulse1
  | .enablePulse2 => some .pulse2
  | .enableTriangle => some .triangle
  | .enableNoise => some .noise
  | .enableDmc => some .dmc
  | _ => none

end Param

def Channel.enable? : Channel → Option Param
  | .pulse1 => some .enablePulse1
  | .pulse2 => some .enablePulse2
  | .triangle => some .enableTriangle
  | .noise => some .enableNoise
  | .dmc => some .enableDmc
  | _ => none

def Voice.enable : Voice → Param
  | .pulse1 => .enablePulse1
  | .pulse2 => .enablePulse2
  | .triangle => .enableTriangle
  | .noise => .enableNoise

end ApuScore
