import ApuScore.Decimal.Binary64
/-
  Reading decimals — the number that a written decimal stands for.

  A decimal is an optional sign and then `inf`, `infinity` or `nan` in any case,
  or digits with at most one point among them and at least one digit, and an
  optional exponent. Digits outside the exponent are read exactly and rounded
  once.
-/

namespace ApuScore.Reading

/-- The value of the digits at the head of the text, their count, and the rest. -/
def takeDigits : Nat → Nat → List Char → Nat × Nat × List Char
  | value, count, [] => (value, count, [])
  | value, count, c :: rest =>
    if '0' ≤ c ∧ c ≤ '9' then takeDigits (10 * value + (c.toNat - 48)) (count + 1) rest
    else (value, count, c :: rest)

/-- The sign at the head of the text, and the rest. -/
def takeSign : List Char → Bool × List Char
  | '-' :: rest => (true, rest)
  | '+' :: rest => (false, rest)
  | text => (false, text)

/-- A written exponent: absent, or a mark, a sign and at least one digit to the end. -/
def exponent? : List Char → Option Int
  | [] => some 0
  | c :: rest =>
    if c = 'e' ∨ c = 'E' then
      let (negative, rest) := takeSign rest
      match takeDigits 0 0 rest with
      | (value, _ + 1, []) => some (if negative then -(value : Int) else value)
      | _ => none
    else none

/-- `digits * 10 ^ place` as a number. Beyond these bounds the answer no longer
depends on the exponent. -/
def assemble (negative : Bool) (digits : Nat) (place : Int) : Float :=
  if digits = 0 then Binary64.ofRatio negative 0 1
  else if 400 < place then Binary64.ofRatio negative (Nat.pow 2 1024) 1
  else if place < -400 - (digits.log2 : Int) then Binary64.ofRatio negative 0 1
  else if 0 ≤ place then Binary64.ofRatio negative (digits * Nat.pow 10 place.toNat) 1
  else Binary64.ofRatio negative digits (Nat.pow 10 (-place).toNat)

/-- The finite number that an unsigned decimal stands for. -/
def finite? (negative : Bool) (text : List Char) : Option Float :=
  let (whole, wholeCount, rest) := takeDigits 0 0 text
  let (value, places, rest) := match rest with
    | '.' :: more => takeDigits whole 0 more
    | _ => (whole, 0, rest)
  if wholeCount + places = 0 then none
  else (exponent? rest).map fun e => assemble negative value (e - places)

def float? (text : String) : Option Float :=
  let (negative, body) := takeSign text.toList
  let lower := body.map Char.toLower
  if lower = "inf".toList ∨ lower = "infinity".toList then
    some (Float.ofBits (if negative then 0xFFF0000000000000 else 0x7FF0000000000000))
  else if lower = "nan".toList then some (Float.ofBits 0x7FF8000000000000)
  else finite? negative body

/-- The natural number that `text` stands for: decimal digits, at least one,
behind an optional plus sign. -/
def nat? (text : String) : Option Nat :=
  let digits := match text.toList with
    | '+' :: rest => rest
    | text => text
  match takeDigits 0 0 digits with
  | (value, _ + 1, []) => some value
  | _ => none

end ApuScore.Reading
