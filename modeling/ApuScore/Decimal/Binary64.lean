/-
  Binary64 — the exact value of a floating-point number, and rounding to one.

  A finite number other than zero is `± mantissa * 2 ^ exponent` with whole
  `mantissa` and `exponent`; `decode` reads the three off the bit pattern.
  `ofRatio` goes the other way: the number nearest to a ratio of naturals, an
  exact tie going to the even mantissa.
-/

namespace ApuScore.Binary64

/-- What a bit pattern stands for. -/
inductive Value where
  | nan
  | infinite (negative : Bool)
  | finite (negative : Bool) (mantissa : Nat) (exponent : Int)
  deriving DecidableEq, Repr

/-- The value of the bit pattern `bits`. -/
def decodeBits (bits : Nat) : Value :=
  let negative := bits / Nat.pow 2 63 % 2 == 1
  let field : Nat := bits / Nat.pow 2 52 % Nat.pow 2 11
  let fraction : Nat := bits % Nat.pow 2 52
  if field = 2047 then
    if fraction = 0 then .infinite negative else .nan
  else if field = 0 then .finite negative fraction (-1074)
  else .finite negative (Nat.pow 2 52 + fraction) ((field : Int) - 1075)

def decode (x : Float) : Value :=
  decodeBits x.toBits.toNat

/-- `num / den` to the nearest whole number, a tie to the even one. -/
def divEven (num den : Nat) : Nat :=
  let q := num / den
  let r := 2 * (num % den)
  if den < r then q + 1
  else if r = den then q + q % 2
  else q

/-- The exponent `e`, at least `-1074`, for which `num / den / 2 ^ e` has 53 bits
before the point where the range allows. -/
def exponentOf (num den : Nat) : Int :=
  let guess : Int := (num.log2 : Int) - (den.log2 : Int) - 53
  let scaled : Nat := if 0 ≤ guess then num / (den * Nat.pow 2 guess.toNat)
    else num * Nat.pow 2 (-guess).toNat / den
  let e := if scaled < Nat.pow 2 53 then guess else guess + 1
  max e (-1074)

/-- The bit pattern of the nearest number to `num / den`, without its sign. -/
def bitsOfRatio (num den : Nat) : Nat :=
  if num = 0 ∨ den = 0 then 0
  else
    let e := exponentOf num den
    if 971 < e then 2047 * Nat.pow 2 52
    else
      let m := if 0 ≤ e then divEven num (den * Nat.pow 2 e.toNat)
        else divEven (num * Nat.pow 2 (-e).toNat) den
      -- A mantissa that rounds up to 2 ^ 53 carries into the exponent field.
      if m < Nat.pow 2 52 then m
      else min ((e + 1074).toNat * Nat.pow 2 52 + m) (2047 * Nat.pow 2 52)

/-- The floating-point number nearest to `± num / den`. -/
def ofRatio (negative : Bool) (num den : Nat) : Float :=
  Float.ofBits (UInt64.ofNat ((if negative then Nat.pow 2 63 else 0) + bitsOfRatio num den))

end ApuScore.Binary64
