import ApuScore.Bytes
import ApuScore.Chip.Param
import ApuScore.Decimal.Shortest
/-
  Faults — why a trace, an event log or a setting is refused.

  A `FormatError` is a fault of the trace bytes, a `ProtocolError` one of an
  event log, a score or a notation. `Error` is either of them, or a tempo
  estimate that has too little to go on, or a setting that describes no usable
  frame rate. The wording is in the `message` functions and nowhere else.
-/

namespace ApuScore

/-- What is wrong with the bytes of a trace. -/
inductive FormatError where
  /-- `needed` bytes were to be read at `offset` for `what`, and `available` were left. -/
  | outOfRange (what : String) (offset needed available : Nat)
  | badIdent (tag : Bytes)
  | unsupportedVersion (version : Nat)
  | eofMismatch (declared actual : Nat)
  | unsupportedClock (hz : Nat)
  | unsupportedFlags (flags : Nat)
  | unsupportedRate (rate : Nat)
  | unknownOpcode (opcode : UInt8) (offset : Nat)
  | malformedBlock (offset : Nat)
  | sampleCountMismatch (declared actual : Nat)
  deriving DecidableEq, Repr

/-- What is wrong with an event log, a score or a notation. -/
inductive ProtocolError where
  | unknownRegister (register : UInt8)
  | unknownParam (channel : Channel) (param : Param)
  | offsetMismatch (channel : Channel) (param : Param) (expected actual : UInt8)
  | valueOutOfRange (channel : Channel) (param : Param) (value : UInt8) (range : Nat)
  | missingClock
  /-- A clock event at a position other than the first. -/
  | misplacedClock (position : Nat)
  | notAVoice (channel : Channel)
  | unknownController (channel : Channel) (controller : UInt8)
  /-- A score whose rate is not the sample rate. -/
  | notAtSampleRate (rate : Float)
  deriving Repr

/-- A reducer setting that describes no usable frame rate. -/
inductive SettingFault where
  | rateStep
  | rateMin
  | rateMax
  | frameRate
  deriving DecidableEq, Repr

/-- Why a conversion failed. -/
inductive Error where
  | format (fault : FormatError)
  | protocol (fault : ProtocolError)
  /-- Tempo estimation found `found` usable intervals and wants `required`. -/
  | tooFewIntervals (found required : Nat)
  | badSetting (fault : SettingFault)
  deriving Repr

/-- Numbers in brackets with commas between. -/
def listing (bytes : Bytes) : String :=
  let items := String.intercalate ", " (bytes.map fun b => toString b.toNat)
  s!"[{items}]"

def FormatError.message : FormatError → String
  | .outOfRange what offset needed available =>
    let place := Numeral.hexUpper 1 offset
    s!"offset out of range at {what}: 0x{place} (needed {needed} bytes, available {available})"
  | .badIdent tag =>
    let items := listing tag
    s!"invalid ident: {items}"
  | .unsupportedVersion version =>
    let digits := Numeral.hexUpper 3 version
    s!"unsupported version: 0x{digits}"
  | .eofMismatch declared actual =>
    s!"eof offset mismatch: header declares {declared} bytes, input has {actual}"
  | .unsupportedClock hz => s!"unsupported APU clock rate {hz} Hz"
  | .unsupportedFlags flags =>
    let digits := Numeral.hexUpper 8 flags
    s!"unsupported clock feature flags 0x{digits}"
  | .unsupportedRate rate => s!"unsupported global rate {rate} (must be zero)"
  | .unknownOpcode opcode offset =>
    let code := Numeral.hexUpper 2 opcode.toNat
    let place := Numeral.hexUpper 1 offset
    s!"unknown opcode 0x{code} at offset 0x{place}"
  | .malformedBlock offset =>
    let place := Numeral.hexUpper 1 offset
    s!"malformed data block at offset 0x{place}"
  | .sampleCountMismatch declared actual =>
    s!"wait total {actual} does not match declared total samples {declared}"

def ProtocolError.message : ProtocolError → String
  | .unknownRegister register =>
    let digits := Numeral.hexUpper 2 register.toNat
    s!"unknown register 0x{digits}"
  | .unknownParam channel param =>
    s!"channel {channel.code} has no function {param.code}"
  | .offsetMismatch channel param expected actual =>
    s!"{channel.code}_{param.code} lives at offset {expected.toNat}, event says {actual.toNat}"
  | .valueOutOfRange channel param value range =>
    s!"{channel.code}_{param.code}: value {value.toNat} outside [0, {range})"
  | .missingClock => "event log must start with a clock event"
  | .misplacedClock position =>
    s!"clock event at position {position}; only the first event may set the clock"
  | .notAVoice channel => s!"channel {channel.code} cannot carry notes"
  | .unknownController channel controller =>
    s!"unsupported controller {controller.toNat} on channel {channel.code}"
  | .notAtSampleRate rate =>
    let actual := Shortest.text rate
    s!"expected a score at 44100 Hz, got {actual} Hz"

def SettingFault.message : SettingFault → String
  | .rateStep => "rate_step must be positive"
  | .rateMin => "rate_min must be positive"
  | .rateMax => "rate_max must not be below rate_min"
  | .frameRate => "frame rate must be positive"

def Error.message : Error → String
  | .format fault => s!"format error: {fault.message}"
  | .protocol fault => s!"protocol error: {fault.message}"
  | .tooFewIntervals found required =>
    s!"too few intervals ({found}, need {required}) to estimate tempo"
  | .badSetting fault => s!"invalid reducer setting: {fault.message}"

/-- The failure that a failure stems from. -/
def Error.cause? : Error → Option String
  | .format fault => some fault.message
  | .protocol fault => some fault.message
  | _ => none

/-- A trace conversion as a step of a longer conversion. -/
def liftFormat {α : Type} : Except FormatError α → Except Error α
  | .ok a => .ok a
  | .error e => .error (.format e)

/-- A log conversion as a step of a longer conversion. -/
def liftProtocol {α : Type} : Except ProtocolError α → Except Error α
  | .ok a => .ok a
  | .error e => .error (.protocol e)

end ApuScore
