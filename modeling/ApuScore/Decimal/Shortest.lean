import ApuScore.Decimal.Binary64
import ApuScore.Text.Numeral
/-
  Shortest decimals — the fewest digits that read back as the same number.

  The reals that round to `m * 2 ^ q` form an interval around it, its ends
  included exactly when `m` is even. For one digit, two digits and so on, the
  value's two neighbours on that decimal grid are tried; the first grid with a
  hit wins, of two hits the nearer one, and the upper one on an exact tie.
-/

namespace ApuScore.Shortest

open ApuScore.Binary64 (Value)

/-- A value and the ends of its rounding interval, over one denominator. -/
structure Span where
  low : Nat
  value : Nat
  high : Nat
  den : Nat
  closed : Bool

/-- The interval of reals that round to `mantissa * 2 ^ exponent`. The gap below
a power of two is half the gap above it. -/
def Span.of (mantissa : Nat) (exponent : Int) : Span :=
  let narrow := mantissa = Nat.pow 2 52 ∧ -1074 < exponent
  let unit := if 0 ≤ exponent then Nat.pow 2 exponent.toNat else 1
  let den := if 0 ≤ exponent then 4 else 4 * Nat.pow 2 (-exponent).toNat
  { low := (4 * mantissa - if narrow then 1 else 2) * unit
    value := 4 * mantissa * unit
    high := (4 * mantissa + 2) * unit
    den := den
    closed := mantissa % 2 = 0 }

/-- Whether `digits * num / den` lies in the interval. -/
def Span.holds (s : Span) (digits num den : Nat) : Bool :=
  let x := digits * num * s.den
  if s.closed then s.low * den ≤ x && x ≤ s.high * den
  else s.low * den < x && x < s.high * den

/-- The decimal exponent of the leading digit of `num / den`. -/
def leadingExponent (num den : Nat) : Int :=
  if den ≤ num then ((Numeral.digits 10 (num / den)).length : Int) - 1
  else
    -- `den / num` rounded up has one digit more than the zeros before the first digit.
    let up := (den + num - 1) / num
    0 - ((Numeral.digits 10 (up - 1)).length : Int)

/-- The hit on the grid of step `10 ^ place`, if there is one. -/
def Span.onGrid (s : Span) (place : Int) : Option Nat :=
  let num := if 0 ≤ place then Nat.pow 10 place.toNat else 1
  let den := if 0 ≤ place then 1 else Nat.pow 10 (-place).toNat
  let below := s.value * den / (num * s.den)
  let rest := s.value * den - below * (num * s.den)
  let above := if rest = 0 then below else below + 1
  match s.holds below num den && 0 < below, s.holds above num den with
  | true, true => some (if 2 * rest < num * s.den then below else above)
  | true, false => some below
  | false, true => some above
  | false, false => none

/-- The first grid with a hit, from `place` down, at most `fuel` grids. -/
def Span.search (s : Span) : Nat → Int → Nat × Int
  | 0, place => (s.value / s.den, place)
  | fuel + 1, place =>
    match s.onGrid place with
    | some d => (d, place)
    | none => s.search fuel (place - 1)

/-- Digits without trailing zeros, and the exponent that keeps the value. -/
def trim : List Nat → Int → List Nat × Int
  | [], place => ([], place)
  | 0 :: rest, place => trim rest (place + 1)
  | d :: rest, place => ((d :: rest).reverse, place)

/-- The shortest digits of a positive value and the exponent of the last one. -/
def digitsOf (mantissa : Nat) (exponent : Int) : List Nat × Int :=
  let s := Span.of mantissa exponent
  let (d, place) := s.search 20 (leadingExponent s.value s.den)
  trim (Numeral.digits 10 d).reverse place

/-- `digits * 10 ^ place` written without an exponent. -/
def positional (digits : List Nat) (place : Int) : List Char :=
  let text := digits.map (Numeral.digitChar 'a')
  if 0 ≤ place then text ++ List.replicate place.toNat '0'
  else
    let places := (-place).toNat
    let padded := Numeral.padLeft '0' (places + 1) text
    padded.take (padded.length - places) ++ '.' :: padded.drop (padded.length - places)

/-- The text of `v`: shortest digits, never an exponent, no point in a whole
number, and a sign on a negative zero. -/
def Value.text : Value → String
  | .nan => "NaN"
  | .infinite negative => if negative then "-inf" else "inf"
  | .finite negative mantissa exponent =>
    let body :=
      if mantissa = 0 then ['0']
      else
        let (digits, place) := digitsOf mantissa exponent
        positional digits place
    String.ofList (if negative then '-' :: body else body)

def text (x : Float) : String :=
  Value.text (Binary64.decode x)

end ApuScore.Shortest
