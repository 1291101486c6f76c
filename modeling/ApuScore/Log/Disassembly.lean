import ApuScore.Log.Write
/-
  Disassembly — register writes taken apart into parameter writes.

  A register write becomes one write per bit field of its register, in layout
  order. Atoms count up within a run of writes: a new one starts when a register
  that the current atom already wrote is written again, and every wait starts
  over at zero. Data blocks say nothing about the chip and are left out.
-/

namespace ApuScore

/-- The atom that is being filled and the registers it has written. -/
structure AtomState where
  atom : Nat := 0
  written : List (Channel × UInt8) := []
  deriving DecidableEq, Repr

namespace AtomState

/-- The state after a register is written; the atom in it is the write's atom. -/
def touch (s : AtomState) (place : Channel × UInt8) : AtomState :=
  if place ∈ s.written then { atom := s.atom + 1, written := [place] }
  else { s with written := place :: s.written }

end AtomState

/-- The parameter writes that a byte at an offset of a channel stands for. -/
def splitByte (channel : Channel) (offset byte : UInt8) (atom : Nat) : List ParamWrite :=
  ((channel.fieldsAt? offset).getD []).map fun f =>
    ⟨channel, f.param, f.extract byte, atom, offset⟩

/-- The steps that one step stands for, and the state after it. -/
def disassembleStep (s : AtomState) :
    Step RegisterOp → Except ProtocolError (AtomState × List (Step ParamWrite))
  | .wait n => .ok ({}, [.wait n])
  | .act (.data _ _) => .ok (s, [])
  | .act (.write register value) =>
    match Channel.ofRegister? register with
    | none => .error (.unknownRegister register)
    | some (channel, offset) =>
      let s := s.touch (channel, offset)
      .ok (s, (splitByte channel offset value s.atom).map .act)

/-- The steps that `steps` stand for, behind those already found, latest first. -/
def disassembleFrom (s : AtomState) (found : List (List (Step ParamWrite))) :
    List (Step RegisterOp) → Except ProtocolError (List (Step ParamWrite))
  | [] => .ok found.reverse.flatten
  | step :: rest =>
    match disassembleStep s step with
    | .error e => .error e
    | .ok (s, out) => disassembleFrom s (out :: found) rest

def disassemble (log : RegisterLog) : Except ProtocolError ParamLog := do
  let t ← Timeline.ofEvents log
  let steps ← disassembleFrom {} [] t.steps
  return Timeline.toEvents ⟨t.clock, steps⟩

end ApuScore
