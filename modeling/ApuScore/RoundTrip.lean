import ApuScore.Trace.Codec
import ApuScore.Log.Disassembly
import ApuScore.Log.Assembly
import ApuScore.Log.Pruning
import ApuScore.Log.Regrouping
import ApuScore.Score.Scribe
import ApuScore.Score.Resampling
import ApuScore.Score.Projection
import ApuScore.Score.Sheet
/-
  Round trips — a trace taken to another form and back to a trace.

  A form is a representation of what the trace plays, from its register writes
  down to notes. The last four forms may be brought to a lower frame rate on the
  way, a given or an estimated one.
-/

namespace ApuScore

inductive FrameRate where
  /-- One frame per sample. -/
  | native
  | fixed (hz : Float)
  | estimated
  deriving Repr

/-- A representation of a trace. -/
inductive Form where
  | registers
  | params
  | changes
  | raw
  | expressive (rate : FrameRate)
  | separated (rate : FrameRate)
  | blended (rate : FrameRate)
  | sheet (rate : FrameRate)
  deriving Repr

/-- What a frame rate adds to the name of a form. -/
def FrameRate.suffix : FrameRate → String
  | .native => ""
  | .fixed hz => "@" ++ Shortest.text hz
  | .estimated => "@auto"

def Form.name : Form → String
  | .registers => "raw"
  | .params => "functional"
  | .changes => "compact"
  | .raw => "rawsco"
  | .expressive rate => "exprsco" ++ rate.suffix
  | .separated rate => "seprsco" ++ rate.suffix
  | .blended rate => "blndsco" ++ rate.suffix
  | .sheet rate => "notation" ++ rate.suffix

def ExpressiveScore.atRate (rate : FrameRate) (settings : Settings) (s : ExpressiveScore) :
    Except Error ExpressiveScore :=
  match rate with
  | .native => .ok s
  | .fixed hz => s.downsample (some hz) settings
  | .estimated => s.downsample none settings

/-- The parameter log that comes back from the expressive score of `log`, brought
to a rate and sent through `project`. -/
def throughExpressive (log : ParamLog) (rate : FrameRate) (settings : Settings)
    (project : ExpressiveScore → Except ProtocolError ExpressiveScore) :
    Except Error ParamLog := do
  let raw ← liftProtocol (replay log)
  let score ← liftProtocol (raw.express settings)
  let score ← score.atRate rate settings
  let score ← liftProtocol (project score)
  return (score.toRaw raw.clock).scribe

/-- The parameter log that comes back from a form of `log`. -/
def Form.through (form : Form) (settings : Settings) (log : ParamLog) :
    Except Error ParamLog :=
  match form with
  | .registers => .ok log
  | .params => .ok log
  | .changes => liftProtocol (prune log >>= regroup)
  | .raw => liftProtocol ((replay log).map RawScore.scribe)
  | .expressive rate => throughExpressive log rate settings .ok
  | .separated rate => throughExpressive log rate settings fun s => .ok s.separate.express
  | .blended rate => throughExpressive log rate settings fun s => .ok s.blend.express
  | .sheet rate => throughExpressive log rate settings fun s => s.sheet.express

/-- The trace that comes back from a form of a trace. -/
def roundTrip (bytes : Bytes) (form : Form) (settings : Settings) : Except Error Bytes := do
  let log ← liftFormat (Trace.decode bytes)
  match form with
  | .registers => Trace.encode log
  | form =>
    let params ← liftProtocol (disassemble log)
    let params ← form.through settings params
    let log ← liftProtocol (assemble params)
    Trace.encode log

end ApuScore
