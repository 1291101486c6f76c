import ApuScore.Log.Event
import ApuScore.Chip.Layout
/-
  The three event logs, from the hardware up.

  A register log writes whole bytes to registers and carries data blocks. A
  parameter log writes one named parameter at a time; its atoms group the writes
  that share a physical write, and restart at every wait. A change log keeps only
  channel, parameter and value. Each entry has a one-line text.
-/

namespace ApuScore

/-- An action of a register log. -/
inductive RegisterOp where
  | write (register value : UInt8)
  | data (kind : UInt8) (payload : Bytes)
  deriving DecidableEq, Repr

/-- A write to one parameter of a channel. -/
structure ParamWrite where
  channel : Channel
  param : Param
  value : UInt8
  /-- The group of writes it belongs to, counted within one run of writes. -/
  atom : Nat
  /-- The offset of its register in the channel's block. -/
  offset : UInt8
  deriving DecidableEq, Repr

/-- A parameter that takes a value. -/
structure Change where
  channel : Channel
  param : Param
  value : UInt8
  deriving DecidableEq, Repr

/-- The write of `param` at the offset that the layout gives. -/
def ParamWrite.place (channel : Channel) (param : Param) (value : UInt8) (atom : Nat) :
    ParamWrite :=
  ⟨channel, param, value, atom, (channel.offset? param).getD 0⟩

abbrev RegisterLog := List (Event RegisterOp)

abbrev ParamLog := List (Event ParamWrite)

abbrev ChangeLog := List (Event Change)

def RegisterOp.line : Event RegisterOp → String
  | .clock rate => s!"clock,{rate.hz}"
  | .wait n => s!"wait,{n}"
  | .act (.write register value) =>
    let r := Numeral.hexLower 2 register.toNat
    let v := Numeral.hexLower 2 value.toNat
    s!"apu,{r},{v}"
  | .act (.data kind payload) =>
    let k := Numeral.hexLower 2 kind.toNat
    s!"ram,{k},{payload.length} bytes"

def ParamWrite.line : Event ParamWrite → String
  | .clock rate => s!"clock,{rate.hz}"
  | .wait n => s!"wait,{n}"
  | .act w =>
    s!"apu,{w.channel.code},{w.param.code},{w.value.toNat},{w.atom},{w.offset.toNat}"

def Change.line : Event Change → String
  | .clock rate => s!"clock,{rate.hz}"
  | .wait n => s!"w,{n}"
  | .act c => s!"{c.channel.code}_{c.param.code},{c.value.toNat}"

end ApuScore
