/-
  Sets of characters, as ranges of code points with both ends included.
-/

namespace ApuScore

/-- A set of characters as ranges of code points. -/
abbrev CharRanges := List (Nat × Nat)

namespace CharRanges

def has (ranges : CharRanges) (n : Nat) : Bool := ranges.any fun r => r.1 ≤ n && n ≤ r.2

theorem has_iff {ranges : CharRanges} {n : Nat} :
    ranges.has n = true ↔ ∃ r ∈ ranges, r.1 ≤ n ∧ n ≤ r.2 := by
  simp [has]

end CharRanges

end ApuScore
