/-
  The length counter — how long a voice sounds after its counter was loaded.

  The counter runs down once per half frame unless halted. A disabled voice has
  its counter at zero and takes no load.
-/

namespace ApuScore

/-- Half frames bought by each of the 32 load values. -/
def lengthTable : List Nat :=
  [10, 254, 20, 2, 40, 4, 80, 6, 160, 8, 60, 10, 14, 12, 26, 14,
   12, 16, 24, 18, 48, 20, 96, 22, 192, 24, 72, 26, 16, 28, 32, 30]

/-- A length counter and the enable that gates it. -/
structure LengthCounter where
  enabled : Bool := true
  halt : Bool := false
  count : Nat := 0
  deriving DecidableEq, Repr

namespace LengthCounter

/-- Loads the count that the low five bits of `value` select; nothing while disabled. -/
def load (value : UInt8) (c : LengthCounter) : LengthCounter :=
  if c.enabled then { c with count := lengthTable.getD (value.toNat % 32) 0 } else c

/-- Opens or shuts the gate; shutting it clears the count. -/
def enable (on : Bool) (c : LengthCounter) : LengthCounter :=
  { c with enabled := on, count := if on then c.count else 0 }

/-- One half frame. -/
def clock (c : LengthCounter) : LengthCounter :=
  if c.halt then c else { c with count := c.count - 1 }

end LengthCounter

end ApuScore
