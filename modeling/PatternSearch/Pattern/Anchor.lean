/-!
# Anchors

A pattern can be tied to the start of a text, to its end, or to both. It says so at its own two
ends: by `^` as its first character, and by `$` as its last one, unless that is escaped. Whether it
is escaped is read off the backslashes before it: each pair of them stands for one backslash, so an
odd number leaves one that escapes the `$`.
-/

namespace PatternSearch

/-- The ends of a text at which a match has to start or stop. -/
structure Anchor where
  atStart : Bool
  atEnd : Bool
deriving DecidableEq, Repr

namespace Anchor

/-- Whether a character after those in `before`, which are listed backwards, is escaped. -/
def isEscapedAfter (before : List Char) : Bool :=
  (before.takeWhile (· == '\\')).length % 2 == 1

/-- Takes an anchor off the start of a pattern. -/
def stripStart : List Char → Bool × List Char
  | '^' :: rest => (true, rest)
  | chars => (false, chars)

/-- Takes an anchor off the end of a pattern. -/
def stripEnd (chars : List Char) : Bool × List Char :=
  match chars.reverse with
  | '$' :: before => if isEscapedAfter before then (false, chars) else (true, before.reverse)
  | _ => (false, chars)

/-- Takes the anchors off both ends of a pattern, first at its start. -/
def strip (chars : List Char) : Anchor × List Char :=
  let (atStart, chars) := stripStart chars
  let (atEnd, chars) := stripEnd chars
  (⟨atStart, atEnd⟩, chars)

/-- The number of characters that an anchor takes at the start of a pattern. -/
def width (anchor : Anchor) : Nat :=
  if anchor.atStart then 1 else 0

end Anchor

end PatternSearch
