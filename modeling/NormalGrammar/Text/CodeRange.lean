/-!
# Runs of characters

A class of characters is given by the runs of consecutive code points that it consists of.
-/

namespace NormalGrammar.Text

/-- First and last code point of a run of characters. -/
abbrev CodeRange := Nat × Nat

/-- Whether `c` lies in one of the runs. -/
def inRanges (c : Char) (ranges : List CodeRange) : Bool :=
  ranges.any fun r => decide (r.1 ≤ c.toNat) && decide (c.toNat ≤ r.2)

theorem inRanges_iff {c : Char} {ranges : List CodeRange} :
    inRanges c ranges = true ↔ ∃ r ∈ ranges, r.1 ≤ c.toNat ∧ c.toNat ≤ r.2 := by
  simp [inRanges]

end NormalGrammar.Text
