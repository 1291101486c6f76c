/-
  Numerals — how whole numbers are written in messages, listings and dumps.

  `digits b n` are the base-`b` digits of `n`, most significant first, at least
  one of them. Hexadecimal comes in both cases and padded to a width; a number
  wider than the width is written whole.
-/

namespace ApuScore.Numeral

/-- The digit `d` as a character; `ten` is the letter that stands for ten. -/
def digitChar (ten : Char) (d : Nat) : Char :=
  if d < 10 then Char.ofNat ('0'.toNat + d) else Char.ofNat (ten.toNat + (d - 10))

/-- The digits of `n` put in front of `tail`, at most `fuel` of them. -/
def digitsOnto (base : Nat) : Nat → Nat → List Nat → List Nat
  | 0, _, tail => tail
  | fuel + 1, n, tail =>
    if n < base then n :: tail
    else digitsOnto base fuel (n / base) (n % base :: tail)

/-- The base-`base` digits of `n`, most significant first. -/
def digits (base n : Nat) : List Nat :=
  digitsOnto base (n + 1) n []

/-- `text` with `fill` in front of it up to `width` characters. -/
def padLeft (fill : Char) (width : Nat) (text : List Char) : List Char :=
  List.replicate (width - text.length) fill ++ text

/-- `n` in lower-case hexadecimal, at least `width` digits. -/
def hexLower (width n : Nat) : String :=
  String.ofList (padLeft '0' width ((digits 16 n).map (digitChar 'a')))

def hexUpper (width n : Nat) : String :=
  String.ofList (padLeft '0' width ((digits 16 n).map (digitChar 'A')))

end ApuScore.Numeral
