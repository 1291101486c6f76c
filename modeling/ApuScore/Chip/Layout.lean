import ApuScore.Chip.Param
/-
  The register layout — which bits of which register hold which parameter.

  A bit field is a run of `width` bits from bit `low` up. `Channel.layout` lists,
  for every register of a channel's block, the fields packed into it, and
  `Channel.find?` looks a parameter up in that table. Both pulses share one
  table. No other module knows a bit position.
-/

namespace ApuScore

/-- A parameter's place in a register byte. -/
structure BitField where
  param : Param
  low : Nat
  width : Nat
  deriving DecidableEq, Repr

namespace BitField

/-- The byte with exactly the field's bits set. -/
def mask (f : BitField) : UInt8 :=
  UInt8.ofNat (((1 <<< f.width) - 1) <<< f.low)

def range (f : BitField) : Nat := 1 <<< f.width

def extract (f : BitField) (byte : UInt8) : UInt8 :=
  (byte &&& f.mask) >>> UInt8.ofNat f.low

/-- A register byte with the field set to `value`; bits of `value` that do not
fit are lost. -/
def insert (f : BitField) (byte value : UInt8) : UInt8 :=
  (byte &&& ~~~f.mask) ||| ((value <<< UInt8.ofNat f.low) &&& f.mask)

end BitField

def pulseLayout : List (List BitField) :=
  [[⟨.duty, 6, 2⟩, ⟨.lengthHalt, 5, 1⟩, ⟨.constantVolume, 4, 1⟩, ⟨.volume, 0, 4⟩],
   [⟨.sweepEnable, 7, 1⟩, ⟨.sweepPeriod, 4, 3⟩, ⟨.sweepNegate, 3, 1⟩, ⟨.sweepShift, 0, 3⟩],
   [⟨.timerLow, 0, 8⟩],
   [⟨.lengthLoad, 3, 5⟩, ⟨.timerHigh, 0, 3⟩]]

/-- The registers of the triangle channel; the second one is unused. -/
def triangleLayout : List (List BitField) :=
  [[⟨.lengthHalt, 7, 1⟩, ⟨.linearReload, 0, 7⟩],
   [],
   [⟨.timerLow, 0, 8⟩],
   [⟨.lengthLoad, 3, 5⟩, ⟨.timerHigh, 0, 3⟩]]

/-- The registers of the noise channel; the second one is unused. -/
def noiseLayout : List (List BitField) :=
  [[⟨.lengthHalt, 5, 1⟩, ⟨.constantVolume, 4, 1⟩, ⟨.volume, 0, 4⟩],
   [],
   [⟨.noiseLoop, 7, 1⟩, ⟨.noisePeriod, 0, 4⟩],
   [⟨.lengthLoad, 3, 5⟩]]

def dmcLayout : List (List BitField) :=
  [[⟨.dmcIrq, 7, 1⟩, ⟨.dmcLoop, 6, 1⟩, ⟨.dmcFrequency, 0, 4⟩],
   [⟨.dmcLoadCounter, 0, 7⟩],
   [⟨.dmcSampleAddress, 0, 8⟩],
   [⟨.dmcSampleLength, 0, 8⟩]]

def statusLayout : List (List BitField) :=
  [[⟨.enableDmc, 4, 1⟩, ⟨.enableNoise, 3, 1⟩, ⟨.enableTriangle, 2, 1⟩,
    ⟨.enablePulse2, 1, 1⟩, ⟨.enablePulse1, 0, 1⟩]]

def frameCounterLayout : List (List BitField) :=
  [[⟨.frameMode, 7, 1⟩, ⟨.frameIrqInhibit, 6, 1⟩]]

/-- The first place of `p` in registers that start at offset `off`. -/
def findFrom (p : Param) (off : UInt8) : List (List BitField) → Option (UInt8 × BitField)
  | [] => none
  | fields :: rest =>
    match fields.find? (fun f => f.param == p) with
    | some f => some (off, f)
    | none => findFrom p (off + 1) rest

namespace Channel

def layout : Channel → List (List BitField)
  | .pulse1 => pulseLayout
  | .pulse2 => pulseLayout
  | .triangle => triangleLayout
  | .noise => noiseLayout
  | .dmc => dmcLayout
  | .status => statusLayout
  | .frameCounter => frameCounterLayout

def fieldsAt? (c : Channel) (off : UInt8) : Option (List BitField) :=
  c.layout[off.toNat]?

/-- The offset and the bit field that hold `p`. -/
def find? (c : Channel) (p : Param) : Option (UInt8 × BitField) :=
  findFrom p 0 c.layout

def offset? (c : Channel) (p : Param) : Option UInt8 :=
  (c.find? p).map (·.1)

end Channel

end ApuScore
