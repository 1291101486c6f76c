import ApuScore.Trace.Codec
import ApuScore.Log.Disassembly
import ApuScore.Decimal.Fixed
import ApuScore.Score.Timing
/-
  Reports — the summary of a trace, row by row.
-/

namespace ApuScore

/-- How often each kind of event occurs. -/
structure Tally where
  writes : Nat := 0
  waits : Nat := 0
  blocks : Nat := 0
  deriving DecidableEq, Repr

def Tally.add (t : Tally) : Event RegisterOp → Tally
  | .clock _ => t
  | .wait _ => { t with waits := t.waits + 1 }
  | .act (.write _ _) => { t with writes := t.writes + 1 }
  | .act (.data _ _) => { t with blocks := t.blocks + 1 }

def writesTo (c : Channel) (log : ParamLog) : Nat :=
  log.countP fun
    | .act w => w.channel == c
    | _ => false

def paramRows (log : RegisterLog) : List (List String) :=
  match disassemble log with
  | .error e => [["functions", s!"(disassembly failed: {e.message})"]]
  | .ok params =>
    Channel.all.filterMap fun c =>
      let n := writesTo c params
      if n = 0 then none else some [s!"functions.{c.code}", s!"{n}"]

/-- `n` as eight hexadecimal digits behind `0x`. -/
def word (n : Nat) : String := "0x" ++ Numeral.hexUpper 8 n

/-- The clock of a log and its region. -/
def clockText : RegisterLog → String
  | .clock c :: _ => s!"{c.text} ({c.region.name})"
  | _ => ""

/-- The summary of a trace with the given header and log. -/
def summaryRows (header : Header) (log : RegisterLog) : List (List String) :=
  let t := log.foldl Tally.add {}
  let seconds := Fixed.text 3 (floatOf header.totalSamples / floatOf sampleRate)
  [["Field", "Value"],
   ["VGM version", word header.version],
   ["clock", clockText log],
   ["data_start", word header.dataStart],
   ["gd3_offset", word header.gd3Offset],
   ["total_samples", s!"{header.totalSamples} ({seconds} s @ 44100Hz)"],
   ["events", s!"writes={t.writes} waits={t.waits} data_blocks={t.blocks}"]] ++ paramRows log

end ApuScore
