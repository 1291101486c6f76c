import ApuScore.Chip.Channel
/-
  Frames — what the four voices play at one instant.

  A raw frame holds hardware parameters. A pulse slot is the period, the volume
  and the duty; a triangle slot the period alone; a noise slot has the inverted
  period in its low byte, the volume and the loop flag. A silent voice has zero
  period and volume and keeps its timbre.
-/

namespace ApuScore

/-- The hardware parameters of one voice. -/
structure Slot where
  high : UInt8
  low : UInt8
  volume : UInt8
  timbre : UInt8
  deriving DecidableEq, Repr

namespace Slot

def zero : Slot := ⟨0, 0, 0, 0⟩

/-- The period of a slot, high byte first. -/
def period (s : Slot) : Nat := s.high.toNat * 256 + s.low.toNat

def toBytes (s : Slot) : List UInt8 := [s.high, s.low, s.volume, s.timbre]

end Slot

abbrev Frame := Voices Slot

def Frame.zero : Frame := Voices.const Slot.zero

end ApuScore
