/-
  The envelope — a volume that decays from 15, and the volume unit around it.

  A quarter frame either restarts the envelope or advances its divider; when the
  divider passes the period the decay level drops, and a looping envelope starts
  over at 15. The volume unit puts out a fixed level or the decay level.
-/

namespace ApuScore

/-- A decay level and the divider that paces it. -/
structure Envelope where
  /-- Whether the next quarter frame restarts the decay. -/
  start : Bool := false
  divider : Nat := 0
  decay : Nat := 0
  deriving DecidableEq, Repr

namespace Envelope

/-- The level after a decay step. -/
def nextDecay (looping : Bool) (decay : Nat) : Nat :=
  if decay = 0 then (if looping then 15 else 0) else decay - 1

/-- One quarter frame. The divider is a byte. -/
def clock (period : Nat) (looping : Bool) (e : Envelope) : Envelope :=
  if e.start then { start := false, divider := 0, decay := 15 }
  else
    let divider := (e.divider + 1) % 256
    if period < divider then { e with divider := 0, decay := nextDecay looping e.decay }
    else { e with divider := divider }

end Envelope

/-- A volume register and the envelope that replaces it unless `constant`. -/
structure VolumeUnit where
  constant : Bool := false
  level : UInt8 := 0
  envelope : Envelope := {}
  deriving DecidableEq, Repr

namespace VolumeUnit

def output (u : VolumeUnit) : UInt8 :=
  if u.constant then u.level else UInt8.ofNat u.envelope.decay

/-- One quarter frame; the level doubles as the envelope's period. -/
def clock (looping : Bool) (u : VolumeUnit) : VolumeUnit :=
  { u with envelope := u.envelope.clock u.level.toNat looping }

/-- Restarts the envelope at the next quarter frame. -/
def restart (u : VolumeUnit) : VolumeUnit :=
  { u with envelope := { u.envelope with start := true } }

end VolumeUnit

end ApuScore
