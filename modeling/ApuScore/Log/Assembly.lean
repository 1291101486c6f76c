import ApuScore.Log.Write
import ApuScore.Chip.Registers
/-
  Assembly — parameter writes put together into register writes.

  A register file keeps the other bits of every register that is written. Within
  a run of writes those of one channel, offset and atom become one register write
  with the last byte, in the place of the first of them; a wait, or the end of
  the log, closes the run.
-/

namespace ApuScore

/-- What tells the physical writes of a run apart. -/
structure WriteKey where
  channel : Channel
  offset : UInt8
  atom : Nat
  deriving DecidableEq, Repr

/-- A physical write that waits for its run to close. -/
structure PendingWrite where
  key : WriteKey
  register : UInt8
  byte : UInt8
  deriving DecidableEq, Repr

/-- The run with `w` added, or its byte put in place of an earlier one's. -/
def merge (w : PendingWrite) : List PendingWrite → List PendingWrite
  | [] => [w]
  | p :: rest => if p.key = w.key then { p with byte := w.byte } :: rest else p :: merge w rest

/-- The register write that a parameter write becomes, and the file after it. -/
def ParamWrite.assemble (r : Registers) (w : ParamWrite) :
    Except ProtocolError (Registers × PendingWrite) :=
  match w.channel.find? w.param with
  | none => .error (.unknownParam w.channel w.param)
  | some (offset, field) =>
    if offset ≠ w.offset then .error (.offsetMismatch w.channel w.param offset w.offset)
    else if w.value.toNat < field.range then
      let (r, register, byte) := r.set w.channel offset field w.value
      .ok (r, ⟨⟨w.channel, w.offset, w.atom⟩, register, byte⟩)
    else .error (.valueOutOfRange w.channel w.param w.value field.range)

def closeRun (run : List PendingWrite) : List (Step RegisterOp) :=
  run.map fun p => .act (.write p.register p.byte)

/-- The register file, and the steps or the fault that stopped them. -/
abbrev Assembled := Registers × Except ProtocolError (List (Step RegisterOp))

/-- The register writes of `steps`, behind the open run and what is already
written, latest first. -/
def assembleFrom (r : Registers) (run : List PendingWrite)
    (found : List (List (Step RegisterOp))) : List (Step ParamWrite) → Assembled
  | [] => (r, .ok (closeRun run :: found).reverse.flatten)
  | .wait n :: rest => assembleFrom r [] ((closeRun run ++ [.wait n]) :: found) rest
  | .act w :: rest =>
    match w.assemble r with
    | .error e => (r, .error e)
    | .ok (r, p) => assembleFrom r (merge p run) found rest

/-- The register log of a parameter log over the file `r`, and the file after it.
On a fault the file holds the writes before the offending one. -/
def assembleOver (r : Registers) (log : ParamLog) :
    Registers × Except ProtocolError RegisterLog :=
  match Timeline.ofEvents log with
  | .error e => (r, .error e)
  | .ok t =>
    let (r, steps) := assembleFrom r [] [] t.steps
    (r, steps.map fun steps => Timeline.toEvents ⟨t.clock, steps⟩)

/-- The register log of a parameter log over a cleared file. -/
def assemble (log : ParamLog) : Except ProtocolError RegisterLog :=
  (assembleOver Registers.zero log).2

end ApuScore
