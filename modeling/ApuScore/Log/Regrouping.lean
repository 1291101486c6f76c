import ApuScore.Log.Write
/-
  Regrouping — a change log given back its offsets and atoms.

  Offsets come from the layout. A new atom starts when the register moves or when
  the current atom already sets the parameter; every wait starts over at zero.
-/

namespace ApuScore

/-- The atom that is being filled. -/
structure Grouping where
  atom : Nat := 0
  /-- The register of the last change. -/
  register : Option (Channel × UInt8) := none
  /-- The parameters that the atom sets. -/
  params : List (Channel × Param) := []
  deriving DecidableEq, Repr

namespace Grouping

/-- Whether a change at `register` starts a new atom. -/
def breaks (g : Grouping) (register : Channel × UInt8) (param : Param) : Bool :=
  g.register.any (fun r => r != register) || g.params.contains (register.1, param)

/-- The state after a change at `register`; the atom in it is the change's atom. -/
def add (g : Grouping) (register : Channel × UInt8) (param : Param) : Grouping :=
  if g.breaks register param then
    { atom := g.atom + 1, register := some register, params := [(register.1, param)] }
  else { g with register := some register, params := (register.1, param) :: g.params }

end Grouping

/-- The parameter writes of `steps`, behind those already found, latest first. -/
def regroupFrom (g : Grouping) (found : List (Step ParamWrite)) :
    List (Step Change) → Except ProtocolError (List (Step ParamWrite))
  | [] => .ok found.reverse
  | .wait n :: rest => regroupFrom {} (.wait n :: found) rest
  | .act c :: rest =>
    match c.channel.offset? c.param with
    | none => .error (.unknownParam c.channel c.param)
    | some offset =>
      let g := g.add (c.channel, offset) c.param
      regroupFrom g (.act ⟨c.channel, c.param, c.value, g.atom, offset⟩ :: found) rest

def regroup (log : ChangeLog) : Except ProtocolError ParamLog := do
  let t ← Timeline.ofEvents log
  let steps ← regroupFrom {} [] t.steps
  return Timeline.toEvents ⟨t.clock, steps⟩

end ApuScore
