import ApuScore.Score.Expressive
/-
  Projections — scores that keep nothing but pitches.

  A separated score keeps the pitch of every voice. A blended score keeps the
  sounding pitches of the three melodic voices in ascending order and forgets
  which voice played which. Going back, sounding pulse and noise notes get full
  velocity, and blended pitches go to pulse 1, pulse 2 and the triangle in order.
-/

namespace ApuScore

/-- One pitch per voice and frame. -/
structure SeparatedScore where
  rate : Float
  sampleCount : Nat
  frames : List (Voices UInt8)
  deriving Repr

/-- The melodic pitches of each frame. -/
structure BlendedScore where
  rate : Float
  sampleCount : Nat
  frames : List (List UInt8)
  deriving Repr

/-- The velocity of notes that lost theirs. -/
def fullVelocity : UInt8 := 15

/-- The tone of a bare pitch. The triangle has no velocity. -/
def bareTone (v : Voice) (pitch : UInt8) : Tone :=
  ⟨pitch, if pitch ≠ 0 ∧ v ≠ .triangle then fullVelocity else 0, 0⟩

def ExpressiveScore.separate (s : ExpressiveScore) : SeparatedScore :=
  { rate := s.rate, sampleCount := s.sampleCount
    frames := s.frames.map (Voices.map Tone.pitch) }

def SeparatedScore.express (s : SeparatedScore) : ExpressiveScore :=
  { rate := s.rate, sampleCount := s.sampleCount
    frames := s.frames.map fun f => Voices.ofFn fun v => bareTone v (f.get v) }

/-- The sounding melodic pitches of a chord in ascending order. -/
def Chord.melody (c : Chord) : List UInt8 :=
  ([c.pulse1.pitch, c.pulse2.pitch, c.triangle.pitch].filter (· != 0)).mergeSort
    (fun a b => a ≤ b)

def ExpressiveScore.blend (s : ExpressiveScore) : BlendedScore :=
  { rate := s.rate, sampleCount := s.sampleCount, frames := s.frames.map Chord.melody }

/-- The chord that plays pitches on the melodic voices in order; a fourth pitch
and those after it are dropped. -/
def chordOf (pitches : List UInt8) : Chord :=
  let nth (v : Voice) (i : Nat) : Tone := bareTone v (pitches.getD i 0)
  ⟨nth .pulse1 0, nth .pulse2 1, nth .triangle 2, Tone.zero⟩

def BlendedScore.express (s : BlendedScore) : ExpressiveScore :=
  { rate := s.rate, sampleCount := s.sampleCount, frames := s.frames.map chordOf }

end ApuScore
