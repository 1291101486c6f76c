import ApuScore.Trace.Cleaning
import ApuScore.RoundTrip
import ApuScore.Decimal.Reading
/-
  Requests — what a command line asks for.

  The first argument names a command. Behind it stand operands and options in any
  order. A long option takes its value behind an equals sign or as the next
  argument, a short one also without anything between; a value that is the next
  argument does not start with a dash, unless it is a single dash. No option
  stands twice, and behind a double dash all arguments are operands. What breaks
  these rules is no request.
-/

namespace ApuScore

/-- The form of an event log listing. -/
inductive Listing where
  | registers
  | params
  | changes
  deriving DecidableEq, Repr

/-- What a command line asks for. -/
inductive Request where
  | info (files : List String)
  | dump (file : String) (listing : Listing)
  | simplify (input output : String) (options : CleaningOptions)
  | shorten (input output : String) (count start : Nat)
  | cycle (files : List String) (form : Form) (outDir : Option String)
  deriving Repr

/-- An option that a command knows. -/
structure OptionRule where
  long : String
  short : Option Char := none
  takesValue : Bool

/-- Arguments sorted into operands and options. -/
structure Arguments where
  operands : List String := []
  options : List (String × String) := []
  deriving Repr

namespace Arguments

def value? (a : Arguments) (long : String) : Option String := a.options.lookup long

def has (a : Arguments) (long : String) : Bool := (a.value? long).isSome

/-- With one more option, unless it stood already. -/
def addOption (a : Arguments) (rule : OptionRule) (value : String) : Option Arguments :=
  if a.has rule.long then none else some { a with options := (rule.long, value) :: a.options }

def addOperand (a : Arguments) (arg : String) : Arguments :=
  { a with operands := a.operands ++ [arg] }

end Arguments

/-- An option argument: the rule it follows and the value attached to it. -/
def readOption (rules : List OptionRule) (arg : List Char) :
    Option (OptionRule × Option String) :=
  match arg with
  | '-' :: '-' :: body =>
    let name := String.ofList (body.takeWhile (· ≠ '='))
    let attached := match body.dropWhile (· ≠ '=') with
      | _ :: value => some (String.ofList value)
      | [] => none
    (rules.find? fun r => r.long = name).map fun r => (r, attached)
  | '-' :: c :: body =>
    let attached := match body with
      | [] => none
      | '=' :: value => some (String.ofList value)
      | value => some (String.ofList value)
    (rules.find? fun r => r.short = some c).map fun r => (r, attached)
  | _ => none

/-- Whether an argument stands as an operand or as a value of its own. -/
def isPlain (arg : String) : Bool := arg = "-" || !arg.startsWith "-"

/-- The arguments sorted; `waiting` is the option whose value comes next. -/
def sortArguments (rules : List OptionRule) (a : Arguments) :
    Option OptionRule → List String → Option Arguments
  | none, [] => some a
  | some _, [] => none
  | some rule, arg :: rest =>
    if isPlain arg then (a.addOption rule arg).bind fun a => sortArguments rules a none rest
    else none
  | none, arg :: rest =>
    if arg = "--" then some { a with operands := a.operands ++ rest }
    else if isPlain arg then sortArguments rules (a.addOperand arg) none rest
    else
      match readOption rules arg.toList with
      | none => none
      | some (rule, attached) =>
        match rule.takesValue, attached with
        | true, some value =>
          (a.addOption rule value).bind fun a => sortArguments rules a none rest
        | true, none => sortArguments rules a (some rule) rest
        | false, none => (a.addOption rule "").bind fun a => sortArguments rules a none rest
        | false, some _ => none

/-- Operands that are no empty text. -/
def Arguments.files (a : Arguments) : Option (List String) :=
  if a.operands.all (· ≠ "") then some a.operands else none

def listing? : String → Option Listing
  | "raw" => some .registers
  | "functional" => some .params
  | "compact" => some .changes
  | _ => none

/-- The form named by `name`, at a frame rate where it has one. -/
def form? (rate : FrameRate) : String → Option Form
  | "raw" => some .registers
  | "functional" => some .params
  | "compact" => some .changes
  | "rawsco" => some .raw
  | "exprsco" => some (.expressive rate)
  | "seprsco" => some (.separated rate)
  | "blndsco" => some (.blended rate)
  | "notation" => some (.sheet rate)
  | _ => none

/-- The frame rate that `text` names: `auto` in any case, or a positive number. -/
def frameRate? (text : String) : Option FrameRate :=
  if text.toList.map Char.toLower = "auto".toList then some .estimated
  else
    match Reading.float? text with
    | some hz => if 0.0 < hz then some (.fixed hz) else none
    | none => none

def count? (text : String) : Option Nat :=
  (Reading.nat? text).bind fun n => if n < 0x10000000000000000 then some n else none

namespace Request

def info? (args : List String) : Option Request := do
  let a ← sortArguments [] {} none args
  let files ← a.files
  if files.isEmpty then none else some (.info files)

def dump? (args : List String) : Option Request := do
  let a ← sortArguments [{ long := "format", takesValue := true }] {} none args
  let listing ← listing? ((a.value? "format").getD "functional")
  match ← a.files with
  | [file] => some (.dump file listing)
  | _ => none

def switches : List OptionRule :=
  ["keep-dmc", "drop-pulse1", "drop-pulse2", "drop-triangle", "drop-noise"].map
    fun name => { long := name, takesValue := false }

def simplify? (args : List String) : Option Request := do
  let a ← sortArguments switches {} none args
  match ← a.files with
  | [input, output] =>
    some (.simplify input output
      { dropPulse1 := a.has "drop-pulse1", dropPulse2 := a.has "drop-pulse2"
        dropTriangle := a.has "drop-triangle", dropNoise := a.has "drop-noise"
        dropDmc := !a.has "keep-dmc" })
  | _ => none

def shorten? (args : List String) : Option Request := do
  let rules := [{ long := "max-events", short := some 'n', takesValue := true },
    { long := "start", takesValue := true }]
  let a ← sortArguments rules {} none args
  let count ← (a.value? "max-events").bind count?
  let start ← match a.value? "start" with
    | some text => count? text
    | none => some 0
  match ← a.files with
  | [input, output] => some (.shorten input output count start)
  | _ => none

def cycle? (args : List String) : Option Request := do
  let rules := [{ long := "through", takesValue := true }, { long := "rate", takesValue := true },
    { long := "out-dir", short := some 'o', takesValue := true }]
  let a ← sortArguments rules {} none args
  let rate ← match a.value? "rate" with
    | some text => frameRate? text
    | none => some .native
  let form ← form? rate ((a.value? "through").getD "functional")
  let outDir := a.value? "out-dir"
  if outDir = some "" then none
  else
    let files ← a.files
    if files.isEmpty then none else some (.cycle files form outDir)

def ofArguments? : List String → Option Request
  | "info" :: rest => info? rest
  | "dump" :: rest => dump? rest
  | "simplify" :: rest => simplify? rest
  | "shorten" :: rest => shorten? rest
  | "cycle" :: rest => cycle? rest
  | _ => none

end Request

end ApuScore
