/-!
# Spans

A stretch of a text, between two of its offsets. Offsets count characters from 0 and name the places
between them, so that a text of `n` characters has the offsets `0` to `n`.
-/

namespace PatternSearch

/-- The characters from offset `start` up to, but not including, the one at offset `stop`. -/
structure Span where
  start : Nat
  stop : Nat
deriving DecidableEq, Repr

namespace Span

/-- The characters of `text` within a span. -/
def slice (span : Span) (text : Array Char) : Array Char :=
  text.extract span.start span.stop

/-- A span that lies within a text of `size` characters, with its ends in order. -/
def Within (span : Span) (size : Nat) : Prop :=
  span.start ≤ span.stop ∧ span.stop ≤ size

instance (span : Span) (size : Nat) : Decidable (span.Within size) :=
  inferInstanceAs (Decidable (_ ∧ _))

theorem size_slice {span : Span} {text : Array Char} (h : span.Within text.size) :
    (span.slice text).size = span.stop - span.start := by
  simp [slice, Nat.min_eq_left h.2]

end Span

end PatternSearch
