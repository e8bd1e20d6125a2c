/-!
# Intervals of characters

Characters are ordered by code point. The code points of surrogates belong to no character, so an
interval passes over them.
-/

namespace PatternSearch.Text

/-- The characters from `low` to `high`, both included. -/
def interval (low high : Char) : List Char :=
  (low...=high).toList

@[simp] theorem mem_interval {low high c : Char} : c ∈ interval low high ↔ low ≤ c ∧ c ≤ high := by
  rw [interval, Std.Rcc.mem_toList_iff_mem]
  exact Iff.rfl

end PatternSearch.Text
