import ApuScore.Decimal.Binary64
import ApuScore.Text.Numeral
/-
  Fixed decimals — a number with a given count of places after the point,
  rounded from its exact value, a half going to the even neighbour.
-/

namespace ApuScore.Fixed

open ApuScore.Binary64 (Value)

/-- `mantissa * 2 ^ exponent * 10 ^ places`, rounded to a whole number. -/
def scaled (places mantissa : Nat) (exponent : Int) : Nat :=
  if 0 ≤ exponent then mantissa * Nat.pow 2 exponent.toNat * Nat.pow 10 places
  else Binary64.divEven (mantissa * Nat.pow 10 places) (Nat.pow 2 (-exponent).toNat)

/-- `x` with `places` digits after the point. -/
def text (places : Nat) (x : Float) : String :=
  match Binary64.decode x with
  | .nan => "NaN"
  | .infinite negative => if negative then "-inf" else "inf"
  | .finite negative mantissa exponent =>
    let digits := ((Numeral.digits 10 (scaled places mantissa exponent)).map
      (Numeral.digitChar 'a'))
    let padded := Numeral.padLeft '0' (places + 1) digits
    let whole := padded.take (padded.length - places)
    let body := if places = 0 then whole
      else whole ++ '.' :: padded.drop (padded.length - places)
    String.ofList (if negative then '-' :: body else body)

end ApuScore.Fixed
