import ApuScore.Chip.Triangle
import ApuScore.Chip.Noise
import ApuScore.Chip.Layout
import ApuScore.Score.Frame
import ApuScore.Error
/-
  The chip — four voices and the frame sequencer, one sample at a time.

  `step` takes the chip to the next sample, `write` sets one parameter, and
  `frame` reads off what the voices play. The voices never look at each other.
  The sample channel, its enable and the IRQ inhibit are accepted and ignored.
-/

namespace ApuScore

structure Apu where
  clock : Clock
  pulse1 : Pulse
  pulse2 : Pulse
  triangle : Triangle
  noise : Noise
  sequencer : Sequencer
  deriving DecidableEq, Repr

namespace Apu

/-- The chip after power-on: every voice enabled, every register zero. -/
def new (clock : Clock) : Apu :=
  { clock := clock
    pulse1 := { onesComplement := true }
    pulse2 := { onesComplement := false }
    triangle := {}
    noise := {}
    sequencer := { region := clock.region } }

def nextTick (a : Apu) : Tick := a.sequencer.tick

/-- The chip one sample later. -/
def step (a : Apu) : Apu :=
  let t := a.nextTick
  { a with
    pulse1 := a.pulse1.tick t
    pulse2 := a.pulse2.tick t
    triangle := a.triangle.tick t
    noise := a.noise.tick t
    sequencer := a.sequencer.advance }

/-- Opens or shuts the gate of a voice. -/
def enable (param : Param) (on : Bool) (a : Apu) : Apu :=
  match param with
  | .enablePulse1 => { a with pulse1 := { a.pulse1 with length := a.pulse1.length.enable on } }
  | .enablePulse2 => { a with pulse2 := { a.pulse2 with length := a.pulse2.length.enable on } }
  | .enableTriangle =>
    { a with triangle := { a.triangle with length := a.triangle.length.enable on } }
  | .enableNoise => { a with noise := { a.noise with length := a.noise.length.enable on } }
  | _ => a

/-- The chip after a parameter takes a value that fits it. -/
def set (channel : Channel) (param : Param) (value : UInt8) (a : Apu) : Apu :=
  match channel with
  | .pulse1 => { a with pulse1 := a.pulse1.write param value }
  | .pulse2 => { a with pulse2 := a.pulse2.write param value }
  | .triangle => { a with triangle := a.triangle.write param value }
  | .noise => { a with noise := a.noise.write param value }
  | .dmc => a
  | .status => a.enable param (value != 0)
  | .frameCounter =>
    if param = .frameMode then { a with sequencer := a.sequencer.select (value != 0) } else a

/-- The chip after a write, if the channel has the parameter and the value fits. -/
def write (channel : Channel) (param : Param) (value : UInt8) (a : Apu) :
    Except ProtocolError Apu :=
  match channel.find? param with
  | none => .error (.unknownParam channel param)
  | some (_, field) =>
    if value.toNat < field.range then .ok (a.set channel param value)
    else .error (.valueOutOfRange channel param value field.range)

end Apu

/-- What a pulse plays. The duty shows even in silence. -/
def Pulse.slot (p : Pulse) : Slot :=
  match p.audible? with
  | some volume =>
    { high := UInt8.ofNat (p.timer / 256), low := UInt8.ofNat (p.timer % 256)
      volume := volume, timbre := p.duty }
  | none => { Slot.zero with timbre := p.duty }

def Triangle.slot (t : Triangle) : Slot :=
  if t.audible then
    { Slot.zero with high := UInt8.ofNat (t.timer / 256), low := UInt8.ofNat (t.timer % 256) }
  else Slot.zero

/-- What the noise plays. The loop flag shows even in silence. -/
def Noise.slot (n : Noise) : Slot :=
  let timbre : UInt8 := if n.looping then 1 else 0
  match n.audible? with
  | some volume => { high := 0, low := 16 - n.period, volume := volume, timbre := timbre }
  | none => { Slot.zero with timbre := timbre }

def Apu.frame (a : Apu) : Frame :=
  ⟨a.pulse1.slot, a.pulse2.slot, a.triangle.slot, a.noise.slot⟩

end ApuScore
