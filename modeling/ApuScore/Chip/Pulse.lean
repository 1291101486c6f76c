import ApuScore.Chip.Param
import ApuScore.Chip.LengthCounter
import ApuScore.Chip.Envelope
import ApuScore.Chip.Sequencer
/-
  The pulse channels and their sweep units.

  The period is an 11-bit number written in two parts. The sweep unit keeps the
  target it would move the period to; a pulse whose period is below 8 or whose
  target is 0x800 or more is mute. Pulse 1 subtracts one more than pulse 2 when
  its sweep is negated.
-/

namespace ApuScore

/-- A period with its low eight bits replaced. -/
def withLow (period : Nat) (low : UInt8) : Nat :=
  period / 256 % 8 * 256 + low.toNat

/-- A period with its high three bits replaced. -/
def withHigh (period : Nat) (high : UInt8) : Nat :=
  high.toNat % 8 * 256 + period % 256

/-- The sweep unit of a pulse. -/
structure Sweep where
  enabled : Bool := false
  period : Nat := 0
  negate : Bool := false
  shift : Nat := 0
  divider : Nat := 1
  /-- Whether the next half frame reloads the divider. -/
  reload : Bool := false
  /-- The period the unit would move to. -/
  target : Int := 0
  deriving DecidableEq, Repr

structure Pulse where
  onesComplement : Bool
  duty : UInt8 := 0
  timer : Nat := 0
  volume : VolumeUnit := {}
  sweep : Sweep := {}
  length : LengthCounter := {}
  deriving DecidableEq, Repr

namespace Pulse

/-- The target that the period, the shift and the direction give. The shift
counts modulo the 32 bits of the adder. -/
def targetOf (p : Pulse) : Int :=
  let delta := p.timer >>> (p.sweep.shift % 32)
  if p.sweep.negate then
    (p.timer : Int) - (delta + if p.onesComplement then 1 else 0)
  else (p.timer : Int) + delta

def retarget (p : Pulse) : Pulse :=
  { p with sweep := { p.sweep with target := p.targetOf } }

def setTimer (timer : Nat) (p : Pulse) : Pulse :=
  ({ p with timer := timer }).retarget

/-- Turns the sweep on or off and reloads its divider at the next half frame. -/
def enableSweep (on : Bool) (p : Pulse) : Pulse :=
  ({ p with sweep := { p.sweep with enabled := on, reload := true } }).retarget

/-- Whether the period and the target leave the pulse audible. -/
def inRange (p : Pulse) : Bool :=
  8 ≤ p.timer && p.sweep.target < 0x800

/-- Recomputes the target and moves the period there if both are in range. -/
def glide (p : Pulse) : Pulse :=
  let p := p.retarget
  if p.inRange && 0 < p.sweep.shift then { p with timer := p.sweep.target.toNat } else p

/-- One half frame of an enabled sweep. -/
def runSweep (p : Pulse) : Pulse :=
  let full := p.sweep.period + 1
  let due := p.sweep.divider ≤ 1
  let q := if due then p.glide else p
  let divider := if due ∨ p.sweep.reload then full else p.sweep.divider - 1
  { q with sweep := { q.sweep with divider := divider, reload := false } }

/-- One half frame of the sweep. -/
def clockSweep (p : Pulse) : Pulse :=
  if p.sweep.enabled then p.runSweep else p

/-- The volume the pulse sounds at, if it sounds. -/
def audible? (p : Pulse) : Option UInt8 :=
  if p.length.count = 0 then none
  else if 0 < p.volume.output ∧ p.inRange then some p.volume.output
  else none

def quarterFrame (p : Pulse) : Pulse :=
  { p with volume := p.volume.clock p.length.halt }

def halfFrame (p : Pulse) : Pulse :=
  ({ p with length := p.length.clock }).clockSweep

def tick (t : Tick) (p : Pulse) : Pulse :=
  let p := if t.quarter then p.quarterFrame else p
  if t.half then p.halfFrame else p

def write (param : Param) (value : UInt8) (p : Pulse) : Pulse :=
  match param with
  | .duty => { p with duty := value }
  | .lengthHalt => { p with length := { p.length with halt := value != 0 } }
  | .constantVolume => { p with volume := { p.volume with constant := value != 0 } }
  | .volume => { p with volume := { p.volume with level := value } }
  | .sweepEnable => p.enableSweep (value != 0)
  | .sweepPeriod => { p with sweep := { p.sweep with period := value.toNat } }
  | .sweepNegate => { p with sweep := { p.sweep with negate := value != 0 } }
  | .sweepShift => { p with sweep := { p.sweep with shift := value.toNat } }
  | .timerLow => p.setTimer (withLow p.timer value)
  | .timerHigh => p.setTimer (withHigh p.timer value)
  | .lengthLoad => { p with length := p.length.load value, volume := p.volume.restart }
  | _ => p

end Pulse

end ApuScore
