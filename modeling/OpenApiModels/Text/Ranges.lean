/-!
# Ranges of code points

Properties of characters are tables of closed ranges, or of runs where upper and lower case
letters alternate.
-/

namespace OpenApiModels.Text

/-- Whether a code point lies in one of the closed ranges. -/
def inRanges (table : List (Nat × Nat)) (n : Nat) : Bool :=
  table.any fun r => decide (r.1 ≤ n) && decide (n ≤ r.2)

theorem inRanges_iff {table : List (Nat × Nat)} {n : Nat} :
    inRanges table n = true ↔ ∃ r ∈ table, r.1 ≤ n ∧ n ≤ r.2 := by
  simp [inRanges]

/-- Every `step`-th code point from `first` to `last`. -/
structure Run where
  first : Nat
  last : Nat
  step : Nat

namespace Run

def contains (r : Run) (n : Nat) : Bool :=
  decide (r.first ≤ n) && decide (n ≤ r.last) && (n - r.first) % r.step == 0

/-- The image of `n` when the run is shifted so that its first member becomes `target`. -/
def shift (r : Run) (target n : Nat) : Nat :=
  target + (n - r.first)

end Run

end OpenApiModels.Text
