import ApuScore.Trace.Codec
/-
  Audio — traces rendered to samples and compared.

  `levels` renders a trace as the level of the last byte written, between 0 and
  1. Two renderings of one length are as far apart as their mean squared
  difference.
-/

namespace ApuScore

/-- The mean squared difference of two sample lists of one length. -/
def meanSquare (a b : List Float32) : Option Float :=
  if a.length ≠ b.length then none
  else if a.isEmpty then some 0.0
  else
    let sum := (List.zipWith (fun x y => x.toFloat - y.toFloat) a b).foldl
      (fun sum d => sum + d * d) (0.0 : Float)
    some (sum / a.length.toUInt64.toFloat)

/-- The level that a written byte stands for. -/
def levelOf (value : UInt8) : Float32 := value.toNat.toUInt32.toFloat32 / 255.0

/-- The samples of a log, behind those already found, latest first; `level` is the
level just before. -/
def levelsFrom (level : Float32) (found : List Float32) :
    List (Event RegisterOp) → List Float32
  | [] => found.reverse
  | .act (.write _ value) :: rest => levelsFrom (levelOf value) found rest
  | .wait n :: rest => levelsFrom level (List.replicate n level ++ found) rest
  | _ :: rest => levelsFrom level found rest

def levels (bytes : Bytes) : Except FormatError (List Float32) :=
  (Trace.decode bytes).map (levelsFrom 0.0 [])

/-- How far apart two traces sound. -/
def renderDistance (a b : Bytes) : Except FormatError (Option Float) := do
  let x ← levels a
  let y ← levels b
  return meanSquare x y

end ApuScore
