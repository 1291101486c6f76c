import ApuScore.Chip.Pulse
/-
  The triangle channel. It has no volume: it sounds while both its length counter
  and its linear counter are above zero. A quarter frame reloads the linear
  counter or counts it down.
-/

namespace ApuScore

structure Triangle where
  reloadValue : UInt8 := 0
  linear : Nat := 0
  /-- Whether quarter frames reload the linear counter. -/
  reload : Bool := false
  timer : Nat := 0
  length : LengthCounter := {}
  deriving DecidableEq, Repr

namespace Triangle

/-- One quarter frame. The reload stays on while the length counter is halted. -/
def clockLinear (t : Triangle) : Triangle :=
  { t with
    linear := if t.reload then t.reloadValue.toNat else t.linear - 1
    reload := t.reload && t.length.halt }

def audible (t : Triangle) : Bool :=
  0 < t.length.count && 0 < t.linear

def tick (k : Tick) (t : Triangle) : Triangle :=
  let t := if k.quarter then t.clockLinear else t
  if k.half then { t with length := t.length.clock } else t

def write (param : Param) (value : UInt8) (t : Triangle) : Triangle :=
  match param with
  | .lengthHalt => { t with length := { t.length with halt := value != 0 } }
  | .linearReload => { t with reloadValue := value }
  | .timerLow => { t with timer := withLow t.timer value }
  | .timerHigh => { t with timer := withHigh t.timer value }
  | .lengthLoad => { t with length := t.length.load value, reload := true }
  | _ => t

end Triangle

end ApuScore
