import ApuScore.Log.Write
/-
  Pruning — a parameter log cut down to its changes.

  A write is kept if it changes the last value written to its parameter, or if it
  acts even when it repeats the value: length loads, the four voice enables, the
  frame mode, and the low period byte of a pulse while its sweep is enabled.
  Writes to the sample channel's enable and to the IRQ inhibit are never kept.
  Parameters start at zero, the enables at one.
-/

namespace ApuScore

/-- The last value of every parameter written so far. -/
structure Values where
  entries : List ((Channel × Param) × UInt8)
  deriving DecidableEq, Repr

namespace Values

def lookup (key : Channel × Param) : List ((Channel × Param) × UInt8) → Option UInt8
  | [] => none
  | (k, v) :: rest => if k = key then some v else lookup key rest

def update (key : Channel × Param) (value : UInt8) :
    List ((Channel × Param) × UInt8) → List ((Channel × Param) × UInt8)
  | [] => [(key, value)]
  | (k, v) :: rest => if k = key then (k, value) :: rest else (k, v) :: update key value rest

/-- The value of a parameter; zero if it was never written. -/
def get (s : Values) (channel : Channel) (param : Param) : UInt8 :=
  (lookup (channel, param) s.entries).getD 0

def set (s : Values) (channel : Channel) (param : Param) (value : UInt8) : Values :=
  ⟨update (channel, param) value s.entries⟩

def initial : Values :=
  ⟨[((.status, .enablePulse1), 1), ((.status, .enablePulse2), 1),
    ((.status, .enableTriangle), 1), ((.status, .enableNoise), 1),
    ((.status, .enableDmc), 1)]⟩

end Values

/-- Whether writes to a parameter are never kept. -/
def ignored (channel : Channel) (param : Param) : Bool :=
  match channel, param with
  | .status, .enableDmc => true
  | .frameCounter, .frameIrqInhibit => true
  | _, _ => false

/-- Whether a write to a parameter acts even when it repeats the value. -/
def acting (channel : Channel) (param : Param) : Bool :=
  match param with
  | .lengthLoad => channel.voice?.isSome
  | .enablePulse1 | .enablePulse2 | .enableTriangle | .enableNoise => channel == .status
  | .frameMode => channel == .frameCounter
  | _ => false

/-- Whether a write sets the low period byte of a pulse under an enabled sweep. -/
def sweeping (s : Values) (channel : Channel) (param : Param) : Bool :=
  param == .timerLow && (channel == .pulse1 || channel == .pulse2) &&
    s.get channel .sweepEnable == 1

def kept (s : Values) (w : ParamWrite) : Bool :=
  (s.get w.channel w.param != w.value || acting w.channel w.param ||
    sweeping s w.channel w.param) && !ignored w.channel w.param

/-- The kept steps, behind those already kept, latest first. -/
def pruneFrom (s : Values) (found : List (Step Change)) :
    List (Step ParamWrite) → List (Step Change)
  | [] => found.reverse
  | .wait n :: rest => pruneFrom s (.wait n :: found) rest
  | .act w :: rest =>
    let found := if kept s w then .act ⟨w.channel, w.param, w.value⟩ :: found else found
    pruneFrom (s.set w.channel w.param w.value) found rest

def prune (log : ParamLog) : Except ProtocolError ChangeLog := do
  let t ← Timeline.ofEvents log
  return Timeline.toEvents ⟨t.clock, pruneFrom Values.initial [] t.steps⟩

end ApuScore
