import ApuScore.Chip.Clock
/-
  Timing — where the frames of a score lie on the sample axis.

  Frame `i` of a score with `rate` frames per second starts at sample
  `floor (44100 * i / rate)`, computed in floating point; an answer that is no
  sample index becomes the nearest one. A rate within a millionth of the sample
  rate is the sample rate.
-/

namespace ApuScore

/-- A count as a floating-point number, the nearest if it has more than 53 bits. -/
def floatOf (n : Nat) : Float := n.toUInt64.toFloat

/-- The whole number below `x`, or the nearest 64-bit count. -/
def countBelow (x : Float) : Nat := x.toUInt64.toNat

def isSampleRate (rate : Float) : Bool := (rate - floatOf sampleRate).abs < 1e-6

def frameStart (rate : Float) (i : Nat) : Nat :=
  countBelow (floatOf sampleRate * floatOf i / rate)

end ApuScore
