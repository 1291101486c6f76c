import ApuScore.Text.ZeroWidth
/-
  Ligatures, read from their end.

  In some scripts letters that follow each other, or are joined by a joiner, are
  drawn as one. The first letter of a ligature, or its sign, then adds no column, or
  takes away the column that the rest was given.
-/

namespace ApuScore

/-- The end of a ligature: what stands at the right of a character. -/
inductive Ligature where
  | alef
  | lamed
  | ya
  /-- The vowel sign in front of a joined letter ya. -/
  | vowelYa
  | consonant
  /-- The sign that stacks consonants, in front of a consonant. -/
  | stackedConsonant
  | toneLetter
  | orkhonI
  /-- A letter that can be written below another. -/
  | subscript
  deriving DecidableEq, Repr

namespace Ligature

def alefs : CharRanges :=
  [(0x0622, 0x0623), (0x0625, 0x0625), (0x0627, 0x0627), (0x0671, 0x0673), (0x0675, 0x0675),
   (0x0773, 0x0774), (0x0870, 0x0882)]

def lams : CharRanges :=
  [(0x0644, 0x0644), (0x06B5, 0x06B8), (0x076A, 0x076A), (0x08A6, 0x08A6), (0x08C7, 0x08C7)]

def consonants : CharRanges := [(0x2D31, 0x2D65), (0x2D6F, 0x2D6F)]

/-- Letters that can be written below another. -/
def subscripts : CharRanges :=
  [(0x1780, 0x1782), (0x1784, 0x1787), (0x1789, 0x178C), (0x178E, 0x1793), (0x1795, 0x1798),
   (0x179B, 0x179D), (0x17A0, 0x17A0), (0x17A2, 0x17A2), (0x17A7, 0x17A7), (0x17AB, 0x17AC),
   (0x17AF, 0x17AF)]

/-- The ligature that a character can end. -/
def ending? (n : Nat) : Option Ligature :=
  if alefs.has n then some .alef
  else if n = 0x05DC then some .lamed
  else if n = 0x1A10 then some .ya
  else if consonants.has n then some .consonant
  else if n = 0xA4FC || n = 0xA4FD then some .toneLetter
  else if n = 0x10C03 then some .orkhonI
  else if subscripts.has n then some .subscript
  else none

/-- Whether joiners and ignorable marks in front of the end leave it as it is. -/
def isTransparent : Ligature → Bool
  | .alef => false
  | _ => true

/-- The columns that a letter adds in front of an end, and the end that it makes,
if they form a ligature. The flag says whether a joiner stands between. -/
def letter? (n : Nat) (joined : Bool) : Ligature → Option (Int × Option Ligature)
  | .alef =>
    if lams.has n then some (0, none)
    else if ZeroWidth.joins n then some (0, some .alef)
    else none
  | .lamed => if joined && n = 0x05D0 then some (0, none) else none
  | .ya => if joined && n = 0x1A17 then some (0, some .vowelYa) else none
  | .vowelYa => if n = 0x1A15 then some (0, none) else none
  | .consonant =>
    if n = 0x2D7F then some (1, some .stackedConsonant)
    else if joined && consonants.has n then some (0, none)
    else none
  | .stackedConsonant => if consonants.has n then some (-1, none) else none
  | .toneLetter => if 0xA4F8 ≤ n && n ≤ 0xA4FB then some (0, none) else none
  | .orkhonI => if joined && n = 0x10C32 then some (0, none) else none
  | .subscript => if n = 0x17D2 then some (-1, none) else none

end Ligature

end ApuScore
