import ApuScore.Error
import ApuScore.Chip.Clock
/-
  Event logs — a clock, and then waits and actions in order.

  An event log is a list of events. A well-formed one starts with the clock and
  names no other; it is a `Timeline`, a clock and the steps after it, and
  `Timeline.ofEvents` says which of the two rules a log breaks. What an action is
  depends on the log.
-/

namespace ApuScore

/-- An entry of an event log. -/
inductive Event (α : Type) where
  | clock (rate : Clock)
  /-- Time passes, counted in samples. -/
  | wait (samples : Nat)
  | act (action : α)
  deriving DecidableEq, Repr

/-- A wait or an action. -/
inductive Step (α : Type) where
  | wait (samples : Nat)
  | act (action : α)
  deriving DecidableEq, Repr

/-- A clock and what happens under it. -/
structure Timeline (α : Type) where
  clock : Clock
  steps : List (Step α)
  deriving DecidableEq, Repr

variable {α : Type}

/-- The step that an event is, unless it is a clock. -/
def Event.step? : Event α → Option (Step α)
  | .clock _ => none
  | .wait n => some (.wait n)
  | .act a => some (.act a)

def Step.toEvent : Step α → Event α
  | .wait n => .wait n
  | .act a => .act a

def Step.samples : Step α → Nat
  | .wait n => n
  | .act _ => 0

def totalSamples (steps : List (Step α)) : Nat :=
  steps.foldr (fun s total => s.samples + total) 0

namespace Timeline

def toEvents (t : Timeline α) : List (Event α) :=
  .clock t.clock :: t.steps.map Step.toEvent

def ofEvents : List (Event α) → Except ProtocolError (Timeline α)
  | .clock rate :: rest =>
    match rest.findIdx? (fun e => e.step?.isNone) with
    | some i => .error (.misplacedClock (i + 1))
    | none => .ok ⟨rate, rest.filterMap Event.step?⟩
  | _ => .error .missingClock

end Timeline

end ApuScore
