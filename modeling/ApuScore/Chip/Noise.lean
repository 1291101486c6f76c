import ApuScore.Chip.Param
import ApuScore.Chip.LengthCounter
import ApuScore.Chip.Envelope
import ApuScore.Chip.Sequencer
/-
  The noise channel: a length counter, a volume unit, a period from 0 to 15 and a
  loop flag.
-/

namespace ApuScore

structure Noise where
  looping : Bool := false
  period : UInt8 := 0
  volume : VolumeUnit := {}
  length : LengthCounter := {}
  deriving DecidableEq, Repr

namespace Noise

def audible? (n : Noise) : Option UInt8 :=
  if n.length.count = 0 then none
  else if 0 < n.volume.output then some n.volume.output
  else none

def tick (t : Tick) (n : Noise) : Noise :=
  let n := if t.quarter then { n with volume := n.volume.clock n.length.halt } else n
  if t.half then { n with length := n.length.clock } else n

def write (param : Param) (value : UInt8) (n : Noise) : Noise :=
  match param with
  | .lengthHalt => { n with length := { n.length with halt := value != 0 } }
  | .constantVolume => { n with volume := { n.volume with constant := value != 0 } }
  | .volume => { n with volume := { n.volume with level := value } }
  | .noiseLoop => { n with looping := value != 0 }
  | .noisePeriod => { n with period := value }
  | .lengthLoad => { n with length := n.length.load value, volume := n.volume.restart }
  | _ => n

end Noise

end ApuScore
