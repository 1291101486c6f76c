/-
  The master clock and the sample rate.

  Three clock rates are known: the exact and the truncated spelling of the NTSC
  clock, and the PAL clock. The rate decides the console region.
-/

namespace ApuScore

/-- Samples per second of every sample-indexed form. -/
def sampleRate : Nat := 44100

inductive Region where
  | ntsc
  | pal
  deriving DecidableEq, Repr

/-- A master clock. -/
inductive Clock where
  | ntsc
  | ntscTruncated
  | pal
  deriving DecidableEq, Repr

namespace Clock

def hz : Clock → Nat
  | .ntsc => 1789773
  | .ntscTruncated => 1789772
  | .pal => 1662607

def ofHz? (n : Nat) : Option Clock :=
  if n = 1789773 then some .ntsc
  else if n = 1789772 then some .ntscTruncated
  else if n = 1662607 then some .pal
  else none

theorem ofHz?_hz (c : Clock) : ofHz? c.hz = some c := by
  cases c <;> rfl

/-- The region whose consoles carry the clock. -/
def region : Clock → Region
  | .pal => .pal
  | _ => .ntsc

def text (c : Clock) : String :=
  s!"{c.hz} Hz"

end Clock

def Region.name : Region → String
  | .ntsc => "Ntsc"
  | .pal => "Pal"

end ApuScore
